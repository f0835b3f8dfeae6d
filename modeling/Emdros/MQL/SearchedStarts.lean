/-
# Where `getSMI` looks (`mql_query.cpp`)

The evaluator asks `getSMI` where a block string may start, and tries it there only.  What it leaves
out does not matter: where no object that is related to the substrate starts, and no gap, a block
string finds nothing and changes nothing (`NothingAt`, section 3), and an iterator leaves out such
monads only (`Covers`, section 4).  What it yields beyond the universe is such a monad too.

This holds of what is `Findable`: the relation of the object block is `part_of` or `starts_in`, of
`monads` and the substrate, the first of which is the default; the block is not `NOTEXIST` and its
star has no 0.  `EveryMonad` has what follows for a query.
-/
import Emdros.Base.Tries
import Emdros.MQL.NotExist
import Emdros.Monads.FastQueries
import Emdros.Monads.FillGaps

namespace Emdros

open Partial SpanList IntGaps

/-! ## 1. Substrates -/

/-- What holds wherever `R_blocks` is called: the substrate is a set of monads of the database, not
empty, and the universe is its range. -/
structure IsSubstrate (allM1 U Su : SetOfMonads) : Prop where
  repInv : Su.RepInv
  ne_nil : Su.monadMs ≠ []
  subset : Su.mem ⊆ allM1.mem
  rangeRep : U.RepInv
  range : U.mem = Set.Icc Su.first Su.last

/-- `all_m_1` as `getAll_m_1` makes it. -/
structure SetOfMonads.IsRange (s : SetOfMonads) : Prop where
  repInv : s.RepInv
  range : s.mem = Set.Icc s.first s.last

/-- An object as the database has it: its monads are some of those of the database, and the inst
keeps their ends. -/
structure MonadedObject.IsIn (allM1 : SetOfMonads) (o : MonadedObject) : Prop where
  repInv : o.monads.RepInv
  ne_nil : o.monads.monadMs ≠ []
  subset : o.monads.mem ⊆ allM1.mem
  first : o.first = o.monads.first
  last : o.last = o.monads.last

section Substrate

variable {allM1 U Su som : SetOfMonads} {Sm m first last : Int}

namespace IsSubstrate

theorem first_le_last (h : IsSubstrate allM1 U Su) : Su.first ≤ Su.last :=
  h.repInv.first_le_last h.ne_nil

theorem mem_universe (h : IsSubstrate allM1 U Su) : m ∈ U.mem ↔ Su.first ≤ m ∧ m ≤ Su.last := by
  rw [h.range]
  exact Set.mem_Icc

theorem substrate_subset (h : IsSubstrate allM1 U Su) : Su.mem ⊆ U.mem := fun _ hm =>
  h.mem_universe.mpr ⟨(h.repInv.isLeast_first h.ne_nil).2 hm,
    (h.repInv.isGreatest_last h.ne_nil).2 hm⟩

theorem universe_first (h : IsSubstrate allM1 U Su) : U.first = Su.first :=
  StartMonadInfo.first_of_isLeast h.rangeRep (h.range ▸ isLeast_Icc h.first_le_last)

theorem universe_subset (h : IsSubstrate allM1 U Su) (hall : allM1.IsRange) :
    U.mem ⊆ allM1.mem := by
  have hfirst := h.subset (h.repInv.isLeast_first h.ne_nil).1
  have hlast := h.subset (h.repInv.isGreatest_last h.ne_nil).1
  rw [hall.range] at hfirst hlast ⊢
  rw [h.range]
  exact Set.Icc_subset_Icc hfirst.1 hlast.2

end IsSubstrate

/-- The range from the first to the last monad can be made... -/
theorem exists_range (hrep : Su.RepInv) (hne : Su.monadMs ≠ []) :
    ∃ U, SetOfMonads.empty.add Su.first Su.last = some U ∧ U.RepInv ∧
      U.mem = Set.Icc Su.first Su.last := by
  obtain ⟨U, hU, hrepU, hmem⟩ := StartMonadInfo.add_spec SetOfMonads.repInv_empty
    (hrep.first_le_last hne)
    (SetOfMonads.inRange_of_mem_cover hrep.inRange (hrep.isLeast_first hne).1).1
    (SetOfMonads.inRange_of_mem_cover hrep.inRange (hrep.isGreatest_last hne).1).2
  rw [SetOfMonads.mem_empty, Set.empty_union] at hmem
  exact ⟨U, hU, hrepU, hmem⟩

/-- ...and is the universe of a substrate. -/
theorem isSubstrate_of_add (hrep : Su.RepInv) (hne : Su.monadMs ≠ [])
    (hsubset : Su.mem ⊆ allM1.mem) (hfirst : first = Su.first) (hlast : last = Su.last)
    (hU : SetOfMonads.empty.add first last = some U) : IsSubstrate allM1 U Su := by
  subst hfirst hlast
  obtain ⟨U', hU', hrepU, hmemU⟩ := exists_range hrep hne
  obtain rfl := Option.some.inj (hU'.symm.trans hU)
  exact ⟨hrep, hne, hsubset, hrepU, hmemU⟩

/-- The monads of an object are a substrate for its inner blocks. -/
theorem MonadedObject.IsIn.isSubstrate {o : MonadedObject} (h : o.IsIn allM1)
    (hU : SetOfMonads.empty.add o.first o.last = some U) : IsSubstrate allM1 U o.monads :=
  isSubstrate_of_add h.repInv h.ne_nil h.subset h.first h.last hU

/-- So is a range of monads of the database. -/
theorem isSubstrate_range (hall : allM1.IsRange) (hfirst : first ∈ allM1.mem)
    (hlast : last ∈ allM1.mem) (hsom : SetOfMonads.empty.add first last = some som) :
    IsSubstrate allM1 som som := by
  have hle : first ≤ last := by
    by_contra hlt
    rw [StartMonadInfo.add_of_gt _ (not_le.mp hlt)] at hsom
    cases hsom
  obtain ⟨som', hsom', hrep, hmem⟩ := StartMonadInfo.add_spec SetOfMonads.repInv_empty hle
    (SetOfMonads.inRange_of_mem_cover hall.repInv.inRange hfirst).1
    (SetOfMonads.inRange_of_mem_cover hall.repInv.inRange hlast).2
  obtain rfl := Option.some.inj (hsom'.symm.trans hsom)
  rw [SetOfMonads.mem_empty, Set.empty_union] at hmem
  have hleast : IsLeast som'.mem first := hmem ▸ isLeast_Icc hle
  have hgreatest : IsGreatest som'.mem last := hmem ▸ isGreatest_Icc hle
  refine ⟨hrep, StartMonadInfo.ne_nil_of_mem hleast.1, ?_, hrep, ?_⟩
  · rw [hmem, hall.range]
    rw [hall.range] at hfirst hlast
    exact Set.Icc_subset_Icc hfirst.1 hlast.2
  · rw [StartMonadInfo.first_of_isLeast hrep hleast,
      StartMonadInfo.last_of_isGreatest hrep hgreatest, hmem]

/-- The gap that `gapExists` finds. -/
theorem isGap_of_gapExistsLoop {sm b : Int} : ∀ {l : List MonadSetElement}, Sep l →
    SetOfMonads.gapExistsLoop sm l = some (some b) → IsGap (cover l) sm b
  | [], _, h => by cases h
  | [cur], _, h => by
    rw [SetOfMonads.gapExistsLoop] at h
    split at h
    · cases h
    · split at h
      · cases h
      · cases h
  | cur :: next :: rest, hsep, h => by
    rw [SetOfMonads.gapExistsLoop] at h
    rw [SetOfMonads.isGap_cover_cons_cons hsep]
    split at h
    · rename_i heq
      obtain rfl := Option.some.inj (Option.some.inj h)
      exact Or.inl ⟨heq, rfl⟩
    · split at h
      · cases h
      · exact Or.inr (isGap_of_gapExistsLoop (sep_cons.mp hsep).2 h)

theorem isGap_of_gapExists {b : Int} (h : Su.RepInv) (hgap : Su.gapExists Sm = some (some b)) :
    IsGap Su.mem Sm b := by
  rw [SetOfMonads.gapExists] at hgap
  split at hgap
  · cases hgap
  · exact isGap_of_gapExistsLoop h.sep hgap

/-- The monads of a gap are monads of the database. -/
theorem IsSubstrate.mem_of_isGap (h : IsSubstrate allM1 U Su) (hall : allM1.IsRange) {a b x : Int}
    (hgap : IsGap Su.mem a b) (ha : a ≤ x) (hb : x ≤ b) : x ∈ allM1.mem := by
  have hbefore := (h.repInv.isLeast_first h.ne_nil).2 hgap.before
  have hafter := (h.repInv.isGreatest_last h.ne_nil).2 hgap.after
  refine h.universe_subset hall (h.mem_universe.mpr ⟨?_, ?_⟩)
  · change Su.mFirst ≤ x
    omega
  · change x ≤ Su.mLast
    omega

/-- Where no gap is, `gapExists` finds none. -/
theorem gapExists_of_not_mem (h : Su.RepInv) (hm : m ∉ gaps Su.mem) :
    Su.gapExists m = some none := by
  obtain ⟨r, hr, -⟩ := FastSetOfMonads.gapExists_spec h m
  cases r with
  | none => exact hr
  | some b =>
    have hgap := isGap_of_gapExists h hr
    exact absurd ⟨m, b, hgap, le_rfl, hgap.le⟩ hm

end Substrate

/-! ## 2. The plain way -/

/-- Every monad of the universe from a start monad on. -/
def everyMonad (U : SetOfMonads) (Sm : Int) : List Int :=
  U.constMonads.dropWhile fun m => m < Sm

theorem mem_everyMonad {U : SetOfMonads} (hU : U.RepInv) {Sm m : Int} :
    m ∈ everyMonad U Sm ↔ m ∈ U.mem ∧ Sm ≤ m := by
  rw [everyMonad, mem_dropWhile_lt ((SetOfMonads.constMonads_ascends hU).imp le_of_lt),
    SetOfMonads.mem_constMonads hU]

theorem everyMonad_ascends {U : SetOfMonads} (hU : U.RepInv) (Sm : Int) :
    (everyMonad U Sm).Pairwise (· < ·) :=
  (SetOfMonads.constMonads_ascends hU).sublist (List.dropWhile_sublist _)

section Plain

variable {C S σ : Type}

/-- The environment in which a block may start at every monad. -/
def QueryEnv.withEveryMonad (env : QueryEnv C S σ) : QueryEnv C S σ :=
  { env with
    getSMIBlockString := fun _ U _ Sm => pure (everyMonad U Sm)
    getSMIBlockString1 := fun _ U _ Sm => pure (everyMonad U Sm)
    getSMIObjectBlock := fun _ U _ Sm _ => pure (everyMonad U Sm) }

variable (e : StartMonadEnv)

/-- The relation of an object block is on `monads` and the substrate, and is not `overlap`. -/
structure ObjectBlockInfo.Findable (info : ObjectBlockInfo C) : Prop where
  isMonads : (e.infoOf false info).isMonads = true
  operation : info.msrc.operation ≠ .kMSROOverlap
  substrate : info.msrc.universeOrSubstrate = .kMSNSubstrate

/-- `getSMI` finds the starts of the block; `gaps` is whether it may be a gap. -/
def Block.Findable (gaps : Bool) : Block C → Prop
  | .gapBlock _ => gaps = true
  | .optGapBlock _ => gaps = true
  | .powerBlock _ => False
  | .objectBlock (.mk info _) => info.Findable e
  | .objectBlockNOTEXIST _ => False

mutual

/-- `getSMI` finds the starts of what comes first in the string.  The iterator of an `OR` begins
again at the first gap, so `inOr` is whether gaps may be there too. -/
def BlockString0.Findable (gaps inOr : Bool) : BlockString0 C → Prop
  | .block b => b.Findable e gaps
  | .blockString b => b.Findable gaps inOr

def BlockString1.Findable (gaps inOr : Bool) : BlockString1 C → Prop
  | .nonStar b => b.Findable gaps inOr
  | .star b starSOM => starSOM.isMemberOf 0 = false ∧ b.Findable gaps inOr

def BlockString2.Findable (gaps inOr : Bool) : BlockString2 C → Prop
  | .blockString1 _ b => b.Findable gaps inOr
  | .sequence _ b _ => b.Findable gaps inOr

def BlockString.Findable (gaps inOr : Bool) : BlockString C → Prop
  | .blockString2 b => b.Findable gaps inOr
  | .or b rest => b.Findable inOr inOr ∧ rest.Findable inOr inOr

end

mutual

/-- The objects of all insts are objects of the database, and `Findable` holds wherever `getSMI` is
asked: of what comes first between brackets or behind a power block, of the object blocks of an
unordered group, and of `NOTEXIST` blocks. -/
def ObjectBlock.Searchable : ObjectBlock C → Prop
  | .mk info optBlocks => (∀ o ∈ info.inst, o.IsIn e.allM1) ∧ optBlocks.Searchable

def GapBlock.Searchable : GapBlock C → Prop
  | .mk _ _ optBlocks => optBlocks.Searchable

def OptBlocks.Searchable : OptBlocks C → Prop
  | .null => True
  | .blocks b => b.Searchable

def Block.Searchable : Block C → Prop
  | .gapBlock b => b.Searchable
  | .optGapBlock b => b.Searchable
  | .powerBlock _ => True
  | .objectBlock b => b.Searchable
  | .objectBlockNOTEXIST (.mk info optBlocks) =>
    info.Findable e ∧ (∀ o ∈ info.inst, o.IsIn e.allM1) ∧ optBlocks.Searchable

def BlockString0.Searchable : BlockString0 C → Prop
  | .block b => b.Searchable
  | .blockString b => b.Searchable

def BlockString1.Searchable : BlockString1 C → Prop
  | .nonStar b => b.Searchable
  | .star b _ => b.Searchable

def BlockString2.Searchable : BlockString2 C → Prop
  | .blockString1 _ b => b.Searchable
  | .sequence _ b rest => b.Searchable ∧ rest.Searchable ∧
    (b.getPowerBlock.isSome = true → rest.getBlockString1.Findable e true false)

def BlockString.Searchable : BlockString C → Prop
  | .blockString2 b => b.Searchable
  | .or b rest => b.Searchable ∧ rest.Searchable

def ObjectBlockString.Searchable : ObjectBlockString C → Prop
  | .objectBlock (.mk info optBlocks) =>
    info.Findable e ∧ (∀ o ∈ info.inst, o.IsIn e.allM1) ∧ optBlocks.Searchable
  | .append bs (.mk info optBlocks) => bs.Searchable ∧
    info.Findable e ∧ (∀ o ∈ info.inst, o.IsIn e.allM1) ∧ optBlocks.Searchable

def Blocks.Searchable : Blocks C → Prop
  | .blockString _ b => b.Searchable ∧ b.Findable e true true
  | .unorderedGroup b => b.Searchable

end

end Plain

/-! ## 3. Where nothing starts -/

section Nothing

variable {C S σ : Type} (U Su : SetOfMonads) (m : Int)

/-- No object of the inst that starts at the monad is related as the block says. -/
def ObjectBlockInfo.NothingAt (info : ObjectBlockInfo C) : Prop :=
  ∀ o ∈ info.inst, o.first = m → info.msrc.exec o.monads U Su = some false

/-- What the block looks for does not start at the monad. -/
def Block.NothingAt : Block C → Prop
  | .gapBlock _ => Su.gapExists m = some none
  | .optGapBlock _ => False
  | .powerBlock _ => False
  | .objectBlock (.mk info _) => info.NothingAt U Su m
  | .objectBlockNOTEXIST _ => False

mutual

/-- Nor does what comes first in the string. -/
def BlockString0.NothingAt : BlockString0 C → Prop
  | .block b => b.NothingAt U Su m
  | .blockString b => b.NothingAt

def BlockString1.NothingAt : BlockString1 C → Prop
  | .nonStar b => b.NothingAt
  | .star b starSOM => starSOM.isMemberOf 0 = false ∧ b.NothingAt

def BlockString2.NothingAt : BlockString2 C → Prop
  | .blockString1 _ b => b.NothingAt
  | .sequence _ b _ => b.NothingAt

def BlockString.NothingAt : BlockString C → Prop
  | .blockString2 b => b.NothingAt
  | .or b rest => b.NothingAt ∧ rest.NothingAt

end

variable {U Su m} {env : QueryEnv C S σ}
  {rGroup : ObjectBlockString C → Option (MQLResultCallback σ) → Bool →
    List (List Straw) → Eval σ Sheaf}

/-- An object that is not related does nothing. -/
theorem objectStraws_eq_nil {info : ObjectBlockInfo C} {noOptBlocks : Bool}
    {rOptBlocks : SetOfMonads → SetOfMonads → Eval σ (Option Sheaf)} {o : MonadedObject}
    (h : info.msrc.exec o.monads U Su = some false) :
    objectStraws env U Su info noOptBlocks rOptBlocks o = pure [] := by
  have hdo : doObject env U Su info o = pure false := by
    unfold doObject
    split
    · rw [h]
      rfl
    · rfl
  rw [objectStraws, hdo, pure_bind, if_neg Bool.false_ne_true]

theorem of_mem_objectsStarting {info : ObjectBlockInfo C} {o : MonadedObject}
    (h : o ∈ objectsStarting info m) : o ∈ info.inst ∧ o.first = m := by
  refine ⟨?_, by simpa using List.mem_takeWhile_imp h⟩
  have hat := (List.takeWhile_sublist _).subset h
  unfold ObjectBlockInfo.objectsAtSm at hat
  split at hat
  · cases hat
  · rename_i hdrop
    split at hat
    · cases hat
    · rw [← hdrop] at hat
      exact (List.dropWhile_sublist _).subset hat

theorem collect_eq_nil {ι : Type} {x : ι → Eval σ (List Straw)} : ∀ {l : List ι},
    (∀ i ∈ l, x i = pure []) → collect x l = pure []
  | [], _ => rfl
  | i :: l, h => by
    rw [collect, h i List.mem_cons_self, pure_bind,
      collect_eq_nil fun j hj => h j (List.mem_cons_of_mem i hj), pure_bind]
    rfl

theorem rObjectBlockInst_eq_nil {info : ObjectBlockInfo C} (h : info.NothingAt U Su m)
    (noOptBlocks : Bool) (rOptBlocks : SetOfMonads → SetOfMonads → Eval σ (Option Sheaf)) :
    rObjectBlockInst env U Su m info noOptBlocks rOptBlocks = pure [] := by
  rw [rObjectBlockInst_eq]
  refine collect_eq_nil fun o ho => objectStraws_eq_nil ?_
  obtain ⟨hin, hfirst⟩ := of_mem_objectsStarting ho
  exact h o hin hfirst

theorem rBlock_eq_nil : ∀ {b : Block C}, b.NothingAt U Su m →
    Evaluator.rBlock env rGroup b U Su m = pure []
  | .gapBlock (.mk retrieval obb optBlocks), h => by
    have hgap : Evaluator.rGapBlock env rGroup (.mk retrieval obb optBlocks) Su m false
        = pure none := by
      rw [Evaluator.rGapBlock, rGap, h]
      rfl
    rw [Evaluator.rBlock, hgap, pure_bind]
    rfl
  | .objectBlock (.mk info optBlocks), h => by
    rw [Evaluator.rBlock, Evaluator.rObjectBlock]
    exact rObjectBlockInst_eq_nil h _ _

theorem rStar_eq_nil {starSOM : SetOfMonads} (hzero : starSOM.isMemberOf 0 = false)
    {R : Int → Eval σ (List Straw)} (h : R m = pure []) : rStar starSOM m R = pure [] := by
  rw [rStar, h, pure_bind]
  dsimp only [List.isEmpty_nil]
  rw [if_pos rfl, hzero, if_neg Bool.false_ne_true]

mutual

/-- **Where nothing starts, a string finds nothing and changes nothing.** -/
theorem rBlockString0_eq_nil {maxRange : Int} : ∀ {b : BlockString0 C}, b.NothingAt U Su m →
    Evaluator.rBlockString0 env rGroup b U Su m maxRange = pure []
  | .block b, h => by
    rw [Evaluator.rBlockString0]
    exact rBlock_eq_nil h
  | .blockString b, h => by
    rw [Evaluator.rBlockString0]
    exact rBlockString_eq_nil h

theorem rBlockString1_eq_nil {maxRange : Int} : ∀ {b : BlockString1 C}, b.NothingAt U Su m →
    Evaluator.rBlockString1 env rGroup b U Su m maxRange = pure []
  | .nonStar b, h => by
    rw [Evaluator.rBlockString1]
    exact rBlockString0_eq_nil h
  | .star b starSOM, h => by
    rw [Evaluator.rBlockString1]
    exact rStar_eq_nil h.1 (rBlockString0_eq_nil h.2)

theorem rBlockString2_eq_nil {maxRange : Int} : ∀ {b : BlockString2 C}, b.NothingAt U Su m →
    Evaluator.rBlockString2 env rGroup b U Su m maxRange = pure []
  | .blockString1 _ b, h => by
    rw [Evaluator.rBlockString2]
    exact rBlockString1_eq_nil h
  | .sequence _ b (.blockString1 _ next), h => by
    rw [Evaluator.rBlockString2, rBlockString1_eq_nil h]
    cases next.getPowerBlock with
    | none => rfl
    | some power => rfl
  | .sequence _ b (.sequence _ next nextButOne), h => by
    rw [Evaluator.rBlockString2, rBlockString1_eq_nil h]
    cases next.getPowerBlock with
    | none => rfl
    | some power => rfl

theorem rBlockString_eq_nil {maxRange : Int} : ∀ {b : BlockString C}, b.NothingAt U Su m →
    Evaluator.rBlockString env rGroup b U Su m maxRange = pure []
  | .blockString2 b, h => by
    rw [Evaluator.rBlockString]
    exact rBlockString2_eq_nil h
  | .or b rest, h => by
    rw [Evaluator.rBlockString, rBlockString2_eq_nil h.1, rBlockString_eq_nil h.2]
    rfl

end

end Nothing

/-! ## 4. What the iterators leave out -/

section Iterators

variable {C : Type} {e : StartMonadEnv} {U Su : SetOfMonads} {Sm m : Int}

/-- The iterator, or a walk through its substrate, leaves out only monads of the universe where
nothing starts. -/
structure StartMonadIterator.Covers (nothingAt : Int → Prop) (U : SetOfMonads) (Sm : Int)
    (smi : StartMonadIterator) : Prop where
  tries : SameTries nothingAt smi.monads (everyMonad U Sm)
  repInv : smi.getSu.RepInv
  subset : smi.getSu.mem ⊆ U.mem
  complete : ∀ m ∈ U.mem, Sm ≤ m → m ∉ smi.getSu.mem → nothingAt m

/-- Two walks through sets of monads. -/
theorem sameTries_everyMonad {idle : Int → Prop} {som : SetOfMonads} {start : Int}
    (hsom : som.RepInv) (hU : U.RepInv)
    (h : ∀ m, ¬ idle m → (m ∈ som.mem ∧ start ≤ m ↔ m ∈ U.mem ∧ Sm ≤ m)) :
    SameTries idle (everyMonad som start) (everyMonad U Sm) where
  left := everyMonad_ascends hsom start
  right := everyMonad_ascends hU Sm
  mem_iff m hm := by
    rw [mem_everyMonad hsom, mem_everyMonad hU]
    exact h m hm

namespace StartMonadInfo

variable {b : StartMonadInfo} {allM1 : SetOfMonads}

theorem lowerBoundSm_eq (hmonads : b.isMonads = true) (hop : b.operation ≠ .kMSROOverlap) :
    b.lowerBoundSm allM1 Sm = max allM1.first Sm := by
  unfold lowerBoundSm
  rw [if_pos hmonads]
  cases h : b.operation with
  | kMSROPartOf => rfl
  | kMSROOverlap => exact absurd h hop
  | kMSROStartsIn => rfl

/-- `Suping` is what of the substrate comes from the start monad on. -/
theorem suping_spec (hmonads : b.isMonads = true) (hop : b.operation ≠ .kMSROOverlap)
    (hall : allM1.RepInv) (hSu : Su.RepInv) (hsub : Su.mem ⊆ allM1.mem)
    (hSm : Su.monadMs ≠ [] → Sm ≤ Su.last) :
    ∃ Suping, b.suping allM1 Su Sm = some Suping ∧ Suping.RepInv ∧
      Suping.mem = {m ∈ Su.mem | max allM1.first Sm ≤ m} := by
  have hsuping : b.suping allM1 Su Sm
      = narrowed Su (max allM1.first Sm) (b.upperBoundUniverseEnd allM1 Su) := by
    rw [suping, lowerBoundSm_eq hmonads hop]
    cases h : b.operation with
    | kMSROPartOf => rfl
    | kMSROOverlap => exact absurd h hop
    | kMSROStartsIn => rfl
  rw [hsuping]
  by_cases hnil : Su.monadMs = []
  · refine ⟨Su, if_pos (SetOfMonads.isEmpty_iff.mpr hnil), hSu, ?_⟩
    rw [SetOfMonads.mem_eq_empty.mpr hnil]
    exact (Set.sep_empty _).symm
  · have hfirst := hSu.isLeast_first hnil
    have hlast := hSu.isGreatest_last hnil
    have hallne := ne_nil_of_mem (hsub hlast.1)
    have hleastAll := hall.isLeast_first hallne
    have hgreatestAll := hall.isGreatest_last hallne
    have hupper : b.upperBoundUniverseEnd allM1 Su = Su.last := by
      rw [upperBoundUniverseEnd, if_pos hmonads, isEmpty_of_ne hnil, if_neg Bool.false_ne_true]
      exact min_eq_right (hgreatestAll.2 (hsub hlast.1))
    have hmin := (SetOfMonads.inRange_of_mem_cover hall.inRange hleastAll.1).1
    have hmax := (SetOfMonads.inRange_of_mem_cover hSu.inRange hlast.1).2
    obtain ⟨Suping, hnarrowed, hrep, hmem⟩ := narrowed_spec hSu hnil
      (max_le (hleastAll.2 (hsub hlast.1)) (hSm hnil)) (le_trans hmin (le_max_left _ _)) hmax
    refine ⟨Suping, hupper ▸ hnarrowed, hrep, hmem.trans (Set.ext fun m => ?_)⟩
    exact and_congr_right fun hm => and_iff_left (hlast.2 hm)

end StartMonadInfo

/-- An object that is related to the substrate starts in it. -/
theorem nothingAt_of_not_mem {info : ObjectBlockInfo C} (hinfo : info.Findable e)
    (hinst : ∀ o ∈ info.inst, o.IsIn e.allM1) (hSu : Su.RepInv) (hm : m ∉ Su.mem) :
    info.NothingAt U Su m := by
  intro o ho hfirst
  have hin := hinst o ho
  have hleast := hin.repInv.isLeast_first hin.ne_nil
  have hnot : o.monads.mFirst ∉ Su.mem := by
    rw [← hfirst, hin.first] at hm
    exact hm
  rw [MonadSetRelationClause.exec, hinfo.substrate]
  cases hop : info.msrc.operation with
  | kMSROPartOf =>
    obtain ⟨r, hr, hiff⟩ := SetOfMonads.partOf_of_nonempty hin.repInv hSu hin.ne_nil
    refine hr.trans (congrArg some (Bool.eq_false_iff.mpr fun htrue => ?_))
    exact hnot (hiff.mp htrue hleast.1)
  | kMSROOverlap => exact absurd hop hinfo.operation
  | kMSROStartsIn =>
    refine congrArg some (Bool.eq_false_iff.mpr fun htrue => ?_)
    obtain ⟨x, hx, hxin⟩ := (SetOfMonads.startsIn_of_nonempty hin.repInv hSu hin.ne_nil).mp htrue
    exact hnot (hx.unique hleast ▸ hxin)

/-- The skip list that is made of an inst yields the starts of its objects. -/
theorem exists_inst {info : ObjectBlockInfo C} {allM1 : SetOfMonads}
    (hinst : ∀ o ∈ info.inst, o.IsIn allM1) :
    ∃ inst, SkipList.insertAll (info.inst.map fun o => (o.toInstObject, 0)) = some inst ∧
      ∀ (U : SetOfMonads) (Sm : Int), U.first ≤ nilKey →
        ∃ ks, instStartMonads inst U Sm = some ks ∧
          StartMonadsOf (info.inst.map fun o => o.toInstObject) U Sm ks := by
  have hkey : ∀ o ∈ info.inst, o.first < nilKey := fun o ho => by
    have hin := hinst o ho
    rw [hin.first]
    exact lt_of_le_of_lt (SetOfMonads.inRange_of_mem_cover hin.repInv.inRange
      (hin.repInv.isLeast_first hin.ne_nil).1).2 (by decide)
  obtain ⟨inst, hinsert, hspec⟩ := instStartMonads_insertAll
    (info.inst.map fun o => (o.toInstObject, 0)) (List.forall_mem_map.mpr hkey)
    (List.forall_mem_map.mpr fun o _ => Nat.zero_le _)
  rw [List.map_map] at hspec
  exact ⟨inst, hinsert, hspec⟩

/-- The iterator of an object block. -/
theorem objectBlock_getSMI {info : ObjectBlockInfo C} (hinfo : info.Findable e)
    (hinst : ∀ o ∈ info.inst, o.IsIn e.allM1) (hall : e.allM1.RepInv)
    (h : IsSubstrate e.allM1 U Su) (hSm : Sm ≤ Su.last) (optBlocks : OptBlocks C)
    (bCameFromBlockString : Bool) :
    ∃ smi, (ObjectBlock.mk info optBlocks).getSMI e false Su Sm bCameFromBlockString = some smi ∧
      smi.Covers (info.NothingAt U Su) U Sm ∧ ∀ m ∈ smi.getSu.mem, Sm ≤ m := by
  obtain ⟨inst, hinsert, hspec⟩ := exists_inst hinst
  obtain ⟨Suping, hsuping, hrep, hmem⟩ := StartMonadInfo.suping_spec hinfo.isMonads
    hinfo.operation hall h.repInv h.subset fun _ => hSm
  obtain ⟨Uping, huping, hfirst, hlast⟩ := StartMonadInfo.uping_spec hrep
  obtain ⟨ks, hks, hstarts⟩ := hspec Uping (max e.allM1.first Sm)
    (hfirst ▸ le_trans hrep.bounds_inRange.1 (by decide))
  have hallFirst : ∀ m ∈ Su.mem, e.allM1.first ≤ m := fun m hm =>
    (hall.isLeast_first (StartMonadInfo.ne_nil_of_mem (h.subset hm))).2 (h.subset hm)
  have hmem' : ∀ m, m ∈ Suping.mem ↔ m ∈ Su.mem ∧ Sm ≤ m := fun m => by
    rw [hmem]
    exact and_congr_right fun hm => max_le_iff.trans (and_iff_right (hallFirst m hm))
  refine ⟨⟨Suping, ks⟩, ?_, ⟨⟨hstarts.ascending, everyMonad_ascends h.rangeRep Sm, ?_⟩, hrep, ?_,
    ?_⟩, fun m hm => ((hmem' m).mp hm).2⟩
  · rw [ObjectBlock.getSMI, hinsert, Option.bind_eq_bind, Option.bind_some,
      StartMonadInfo.getSMI, hsuping, Option.bind_eq_bind, Option.bind_some, huping,
      Option.bind_some, StartMonadInfo.lowerBoundSm_eq hinfo.isMonads hinfo.operation]
    change instStartMonadIterator inst Uping Suping (max e.allM1.first Sm) = _
    rw [instStartMonadIterator, hks]
    rfl
  · intro m hm
    -- a related object starts there, so the monad is in the substrate
    have hin : m ∈ Su.mem := by
      by_contra hout
      exact hm (nothingAt_of_not_mem hinfo hinst h.repInv hout)
    rw [mem_everyMonad h.rangeRep, and_iff_right (h.substrate_subset hin)]
    refine ⟨fun hk => le_trans (le_max_right _ _) (hstarts.from_Sm m hk).1, fun hge => ?_⟩
    by_contra hk
    refine hm fun o ho hofirst => absurd ?_ hk
    have hSuping := (hmem' m).mpr ⟨hin, hge⟩
    have hne := StartMonadInfo.ne_nil_of_mem hSuping
    have hcomplete := hstarts.complete o.toInstObject (List.mem_map_of_mem ho)
    rw [hofirst, hfirst, hlast] at hcomplete
    exact hcomplete (max_le (hallFirst m hin) hge) ((hrep.isLeast_first hne).2 hSuping)
      ((hrep.isGreatest_last hne).2 hSuping)
  · exact fun m hm => h.substrate_subset ((hmem' m).mp hm).1
  · intro m _ hge hout
    exact nothingAt_of_not_mem hinfo hinst h.repInv fun hin => hout ((hmem' m).mpr ⟨hin, hge⟩)

/-- The iterator of a `NOTEXIST` block goes through the substrate. -/
theorem notExist_getSMI {info : ObjectBlockInfo C} (hinfo : info.Findable e)
    (hinst : ∀ o ∈ info.inst, o.IsIn e.allM1) (hall : e.allM1.RepInv) (hU : U.RepInv)
    (hSu : Su.RepInv) (hsub : Su.mem ⊆ e.allM1.mem) (hrange : Su.mem ⊆ U.mem)
    (hSm : Su.monadMs ≠ [] → Sm ≤ Su.last) (optBlocks : OptBlocks C) :
    ∃ smi, (ObjectBlock.mk info optBlocks).getSMI e true Su Sm false = some smi ∧
      SameTries (info.NothingAt U Su) smi.monads (everyMonad U Sm) := by
  obtain ⟨inst, hinsert, -⟩ := exists_inst hinst
  obtain ⟨Suping, hsuping, hrep, hmem⟩ := StartMonadInfo.suping_spec
    (b := e.infoOf true info) hinfo.isMonads hinfo.operation hall hSu hsub hSm
  obtain ⟨Uping, huping, -⟩ := StartMonadInfo.uping_spec hrep
  refine ⟨⟨Suping, everyMonad Suping (max e.allM1.first Sm)⟩, ?_,
    sameTries_everyMonad hrep hU fun m hm => ?_⟩
  · rw [ObjectBlock.getSMI, hinsert, Option.bind_eq_bind, Option.bind_some,
      StartMonadInfo.getSMI, hsuping, Option.bind_eq_bind, Option.bind_some, huping,
      Option.bind_some,
      StartMonadInfo.lowerBoundSm_eq (b := e.infoOf true info) hinfo.isMonads hinfo.operation]
    change (if (e.blockStringHasOnlyNOTEXIST info.obb && false) = true then _ else _) = _
    rw [Bool.and_false, if_neg Bool.false_ne_true]
    rfl
  · have hin : m ∈ Su.mem := by
      by_contra hout
      exact hm (nothingAt_of_not_mem hinfo hinst hSu hout)
    have hfirst := (hall.isLeast_first (StartMonadInfo.ne_nil_of_mem (hsub hin))).2 (hsub hin)
    have hmax : max e.allM1.first Sm ≤ m ↔ Sm ≤ m := max_le_iff.trans (and_iff_right hfirst)
    rw [hmem, and_iff_right (hrange hin)]
    exact ⟨fun h => hmax.mp h.2, fun h => ⟨⟨hin, hmax.mpr h⟩, hmax.mpr h⟩⟩

/-- The iterator of a gap block goes through the gaps. -/
theorem gapBlock_getSMI (h : IsSubstrate e.allM1 U Su) (b : GapBlock C) :
    ∃ smi, (Block.gapBlock b).getSMI e U Su Sm true = some smi ∧
      smi.Covers (fun m => (Block.gapBlock b).NothingAt U Su m) U Sm ∧
      (Sm = Su.first → ∀ m ∈ smi.getSu.mem, Sm ≤ m) := by
  obtain ⟨r, hr, hrep, hmem⟩ := SetOfMonads.getGaps_spec h.repInv
  have hrange : ∀ m ∈ r.mem, m ∈ U.mem := fun m hm => by
    rw [h.range]
    exact (union_gaps (h.repInv.isLeast_first h.ne_nil)
      (h.repInv.isGreatest_last h.ne_nil)).subset (Or.inr (hmem ▸ hm))
  have hnothing : ∀ m, m ∉ r.mem → Su.gapExists m = some none := fun m hm =>
    gapExists_of_not_mem h.repInv (hmem ▸ hm)
  refine ⟨⟨r, everyMonad r Sm⟩, ?_, ⟨?_, hrep, hrange, fun m _ _ hm => hnothing m hm⟩, ?_⟩
  · rw [Block.getSMI, monadSetStartMonadIterator, if_pos rfl, hr]
    rfl
  · refine sameTries_everyMonad hrep h.rangeRep fun m hm => ?_
    have hin : m ∈ r.mem := by
      by_contra hout
      exact hm (hnothing m hout)
    rw [and_iff_right hin, and_iff_right (hrange m hin)]
  · rintro rfl m hm
    exact (h.mem_universe.mp (hrange m hm)).1

/-- The iterator of an optional gap block goes through the universe. -/
theorem optGapBlock_getSMI (h : IsSubstrate e.allM1 U Su) (b : GapBlock C) :
    ∃ smi, (Block.optGapBlock b).getSMI e U Su Sm true = some smi ∧
      smi.Covers (fun m => (Block.optGapBlock b).NothingAt U Su m) U Sm ∧
      (Sm = Su.first → ∀ m ∈ smi.getSu.mem, Sm ≤ m) := by
  refine ⟨⟨U, everyMonad U Sm⟩, rfl, ⟨?_, h.rangeRep, subset_rfl, ?_⟩, ?_⟩
  · exact sameTries_everyMonad h.rangeRep h.rangeRep fun m _ => Iff.rfl
  · exact fun m hm _ hout => absurd hm hout
  · rintro rfl m hm
    exact (h.mem_universe.mp hm).1

/-- The iterator of an `OR` goes through the substrates of both its parts. -/
theorem or_getSMI {nothingAt nothingAt' : Int → Prop} {smi smi' : StartMonadIterator}
    (h : smi.Covers nothingAt U Sm) (h' : smi'.Covers nothingAt' U Sm) (hU : U.RepInv)
    (hfrom : ∀ m ∈ smi.getSu.mem, Sm ≤ m) (hfrom' : ∀ m ∈ smi'.getSu.mem, Sm ≤ m) :
    ∃ both, orStartMonadIterator smi smi' Sm = some both ∧
      both.Covers (fun m => nothingAt m ∧ nothingAt' m) U Sm ∧ ∀ m ∈ both.getSu.mem, Sm ≤ m := by
  obtain ⟨hrep, hmem⟩ := SetOfMonads.unionWith_spec h.repInv h'.repInv
  have hfromBoth : ∀ m ∈ (smi.getSu.unionWith smi'.getSu).mem, Sm ≤ m := fun m hm => by
    rw [hmem] at hm
    rcases hm with hm | hm
    · exact hfrom m hm
    · exact hfrom' m hm
  have hsubset : (smi.getSu.unionWith smi'.getSu).mem ⊆ U.mem := by
    rw [hmem]
    exact Set.union_subset h.subset h'.subset
  have hcomplete : ∀ m ∈ U.mem, Sm ≤ m → m ∉ (smi.getSu.unionWith smi'.getSu).mem →
      nothingAt m ∧ nothingAt' m := fun m hm hge hout => by
    rw [hmem] at hout
    exact ⟨h.complete m hm hge fun hin => hout (Or.inl hin),
      h'.complete m hm hge fun hin => hout (Or.inr hin)⟩
  -- the walk begins at the least monad of the two substrates, or before it
  have hstart : ∀ first : Int, first ≤ Sm → ∀ m ∈ (smi.getSu.unionWith smi'.getSu).mem,
      first ≤ m := fun first hfirst m hm => le_trans hfirst (hfromBoth m hm)
  refine ⟨_, rfl, ⟨?_, hrep, hsubset, hcomplete⟩, hfromBoth⟩
  refine sameTries_everyMonad hrep hU fun m hm => ?_
  have hle : ∀ (p q : Bool) (x y : Int),
      (if p then (if q then Sm else min x Sm) else min y (if q then Sm else min x Sm)) ≤ Sm := by
    intro p q x y
    cases p <;> cases q <;> simp
  constructor
  · exact fun hin => ⟨hsubset hin.1, hfromBoth m hin.1⟩
  · rintro ⟨hin, hge⟩
    by_cases hboth : m ∈ (smi.getSu.unionWith smi'.getSu).mem
    · exact ⟨hboth, hstart _ (hle _ _ _ _) m hboth⟩
    · exact absurd (hcomplete m hin hge hboth) hm

end Iterators

/-! ## 5. `getSMI` on a string -/

section Strings

variable {C : Type} {e : StartMonadEnv} {U Su : SetOfMonads} {Sm : Int}

/-- `getSMI` succeeds, and leaves out only monads where nothing starts; without gaps, or at the
start of the substrate, its substrate has nothing before the start monad. -/
def Iterates (getSMI : Option StartMonadIterator) (nothingAt : Int → Prop) (U Su : SetOfMonads)
    (Sm : Int) (gaps : Bool) : Prop :=
  ∃ smi, getSMI = some smi ∧ smi.Covers nothingAt U Sm ∧
    ((gaps = true → Sm = Su.first) → ∀ m ∈ smi.getSu.mem, Sm ≤ m)

theorem block_getSMI (hall : e.allM1.RepInv) (h : IsSubstrate e.allM1 U Su) (hSm : Sm ≤ Su.last)
    {gaps : Bool} : ∀ {b : Block C}, b.Findable e gaps → b.Searchable e →
      Iterates (b.getSMI e U Su Sm true) (fun m => b.NothingAt U Su m) U Su Sm gaps
  | .gapBlock b, hb, _ => by
    obtain ⟨smi, hsmi, hcovers, hfrom⟩ := gapBlock_getSMI h b
    exact ⟨smi, hsmi, hcovers, fun hgaps => hfrom (hgaps hb)⟩
  | .optGapBlock b, hb, _ => by
    obtain ⟨smi, hsmi, hcovers, hfrom⟩ := optGapBlock_getSMI h b
    exact ⟨smi, hsmi, hcovers, fun hgaps => hfrom (hgaps hb)⟩
  | .objectBlock (.mk info optBlocks), hb, hs => by
    obtain ⟨smi, hsmi, hcovers, hfrom⟩ := objectBlock_getSMI hb hs.1 hall h hSm optBlocks true
    exact ⟨smi, hsmi, hcovers, fun _ => hfrom⟩

mutual

theorem blockString0_getSMI (hall : e.allM1.RepInv) (h : IsSubstrate e.allM1 U Su)
    (hSm : Sm ≤ Su.last) {gaps inOr : Bool} (hinOr : inOr = true → Sm = Su.first) :
    ∀ {b : BlockString0 C}, b.Findable e gaps inOr → b.Searchable e →
      Iterates (b.getSMI e U Su Sm) (fun m => b.NothingAt U Su m) U Su Sm gaps
  | .block b, hb, hs => by
    rw [BlockString0.getSMI]
    exact block_getSMI hall h hSm hb hs
  | .blockString b, hb, hs => by
    rw [BlockString0.getSMI]
    exact blockString_getSMI hall h hSm hinOr hb hs

theorem blockString1_getSMI (hall : e.allM1.RepInv) (h : IsSubstrate e.allM1 U Su)
    (hSm : Sm ≤ Su.last) {gaps inOr : Bool} (hinOr : inOr = true → Sm = Su.first) :
    ∀ {b : BlockString1 C}, b.Findable e gaps inOr → b.Searchable e →
      Iterates (b.getSMI e U Su Sm) (fun m => b.NothingAt U Su m) U Su Sm gaps
  | .nonStar b, hb, hs => by
    rw [BlockString1.getSMI]
    exact blockString0_getSMI hall h hSm hinOr hb hs
  | .star b starSOM, hb, hs => by
    rw [BlockString1.getSMI, hb.1, if_neg Bool.false_ne_true]
    obtain ⟨smi, hsmi, hcovers, hfrom⟩ := blockString0_getSMI hall h hSm hinOr hb.2 hs
    refine ⟨smi, hsmi, ⟨hcovers.tries.mono fun m hm => ⟨hb.1, hm⟩, hcovers.repInv, hcovers.subset,
      fun m hm hge hout => ⟨hb.1, hcovers.complete m hm hge hout⟩⟩, hfrom⟩

theorem blockString2_getSMI (hall : e.allM1.RepInv) (h : IsSubstrate e.allM1 U Su)
    (hSm : Sm ≤ Su.last) {gaps inOr : Bool} (hinOr : inOr = true → Sm = Su.first) :
    ∀ {b : BlockString2 C}, b.Findable e gaps inOr → b.Searchable e →
      Iterates (b.getSMI e U Su Sm) (fun m => b.NothingAt U Su m) U Su Sm gaps
  | .blockString1 _ b, hb, hs => by
    rw [BlockString2.getSMI]
    exact blockString1_getSMI hall h hSm hinOr hb hs
  | .sequence _ b _, hb, hs => by
    rw [BlockString2.getSMI]
    exact blockString1_getSMI hall h hSm hinOr hb hs.1

theorem blockString_getSMI (hall : e.allM1.RepInv) (h : IsSubstrate e.allM1 U Su)
    (hSm : Sm ≤ Su.last) {gaps inOr : Bool} (hinOr : inOr = true → Sm = Su.first) :
    ∀ {b : BlockString C}, b.Findable e gaps inOr → b.Searchable e →
      Iterates (b.getSMI e U Su Sm) (fun m => b.NothingAt U Su m) U Su Sm gaps
  | .blockString2 b, hb, hs => by
    rw [BlockString.getSMI]
    exact blockString2_getSMI hall h hSm hinOr hb hs
  | .or b rest, hb, hs => by
    obtain ⟨smi, hsmi, hcovers, hfrom⟩ := blockString2_getSMI hall h hSm hinOr hb.1 hs.1
    obtain ⟨smi', hsmi', hcovers', hfrom'⟩ := blockString_getSMI hall h hSm hinOr hb.2 hs.2
    obtain ⟨both, hboth, hcoversBoth, hfromBoth⟩ := or_getSMI hcovers hcovers' h.rangeRep
      (hfrom hinOr) (hfrom' hinOr)
    refine ⟨both, ?_, hcoversBoth, fun _ => hfromBoth⟩
    rw [BlockString.getSMI, hsmi, hsmi']
    exact hboth

end

end Strings

end Emdros
