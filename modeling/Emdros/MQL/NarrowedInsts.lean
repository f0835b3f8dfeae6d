/-
# Insts that leave out what cannot match

The meaning of a query depends on the insts of its object blocks only through the objects that have
a part in an answer.  An inst may leave out an object of a block without inner blocks if it does not
meet the substrate, and an object of a block with inner blocks if it meets none of the objects that
the innermost blocks have (`Needs`): what is left has the same meaning (`Blocks.sheaf_withInsts`).

For this an answer must have an object of some innermost block in it, which is what
`canChooseAQStrategyInnermostFirst` is for; and this object must meet the object around it, which is
what `Focused` is for.  With `universe`, or with another relation than `part_of` around other
blocks, an object may be found that meets nothing.
-/
import Emdros.MQL.AggregateQuery

namespace Emdros

open SpanList

/-! ## 1. Queries with other insts -/

section Insts

variable {C : Type} (f : ObjectBlock C → List MonadedObject)

mutual

/-- The same query in which each object block has the inst that is given for it. -/
def ObjectBlock.withInsts : ObjectBlock C → ObjectBlock C
  | .mk info optBlocks => .mk { info with inst := f (.mk info optBlocks) } optBlocks.withInsts

def GapBlock.withInsts : GapBlock C → GapBlock C
  | .mk retrieval obb optBlocks => .mk retrieval obb optBlocks.withInsts

def OptBlocks.withInsts : OptBlocks C → OptBlocks C
  | .null => .null
  | .blocks b => .blocks b.withInsts

def Block.withInsts : Block C → Block C
  | .gapBlock b => .gapBlock b.withInsts
  | .optGapBlock b => .optGapBlock b.withInsts
  | .powerBlock power => .powerBlock power
  | .objectBlock b => .objectBlock b.withInsts
  | .objectBlockNOTEXIST b => .objectBlockNOTEXIST b.withInsts

def BlockString0.withInsts : BlockString0 C → BlockString0 C
  | .block b => .block b.withInsts
  | .blockString b => .blockString b.withInsts

def BlockString1.withInsts : BlockString1 C → BlockString1 C
  | .nonStar b => .nonStar b.withInsts
  | .star b starSOM => .star b.withInsts starSOM

def BlockString2.withInsts : BlockString2 C → BlockString2 C
  | .blockString1 node b => .blockString1 node b.withInsts
  | .sequence node b rest => .sequence node b.withInsts rest.withInsts

def BlockString.withInsts : BlockString C → BlockString C
  | .blockString2 b => .blockString2 b.withInsts
  | .or b rest => .or b.withInsts rest.withInsts

def ObjectBlockString.withInsts : ObjectBlockString C → ObjectBlockString C
  | .objectBlock b => .objectBlock b.withInsts
  | .append bs b => .append bs.withInsts b.withInsts

def Blocks.withInsts : Blocks C → Blocks C
  | .blockString usingRange b => .blockString usingRange b.withInsts
  | .unorderedGroup b => .unorderedGroup b.withInsts

end

end Insts

/-! ## 2. The object blocks of a query -/

section ObjectBlocks

variable {C : Type}

mutual

/-- All object blocks, the inner ones first. -/
def ObjectBlock.objectBlocks : ObjectBlock C → List (ObjectBlock C)
  | .mk info optBlocks => optBlocks.objectBlocks ++ [.mk info optBlocks]

def GapBlock.objectBlocks : GapBlock C → List (ObjectBlock C)
  | .mk _ _ optBlocks => optBlocks.objectBlocks

def OptBlocks.objectBlocks : OptBlocks C → List (ObjectBlock C)
  | .null => []
  | .blocks b => b.objectBlocks

def Block.objectBlocks : Block C → List (ObjectBlock C)
  | .gapBlock b => b.objectBlocks
  | .optGapBlock b => b.objectBlocks
  | .powerBlock _ => []
  | .objectBlock b => b.objectBlocks
  | .objectBlockNOTEXIST b => b.objectBlocks

def BlockString0.objectBlocks : BlockString0 C → List (ObjectBlock C)
  | .block b => b.objectBlocks
  | .blockString b => b.objectBlocks

def BlockString1.objectBlocks : BlockString1 C → List (ObjectBlock C)
  | .nonStar b => b.objectBlocks
  | .star b _ => b.objectBlocks

def BlockString2.objectBlocks : BlockString2 C → List (ObjectBlock C)
  | .blockString1 _ b => b.objectBlocks
  | .sequence _ b rest => b.objectBlocks ++ rest.objectBlocks

def BlockString.objectBlocks : BlockString C → List (ObjectBlock C)
  | .blockString2 b => b.objectBlocks
  | .or b rest => b.objectBlocks ++ rest.objectBlocks

def ObjectBlockString.objectBlocks : ObjectBlockString C → List (ObjectBlock C)
  | .objectBlock b => b.objectBlocks
  | .append bs b => bs.objectBlocks ++ b.objectBlocks

def Blocks.objectBlocks : Blocks C → List (ObjectBlock C)
  | .blockString _ b => b.objectBlocks
  | .unorderedGroup b => b.objectBlocks

end

/-- Whether there are no inner blocks. -/
def ObjectBlock.isInnermost : ObjectBlock C → Bool
  | .mk _ optBlocks => optBlocks.isNull

/-- The object blocks inside that have no inner blocks. -/
def ObjectBlock.innermost (b : ObjectBlock C) : List (ObjectBlock C) :=
  b.objectBlocks.filter fun b => b.isInnermost

theorem ObjectBlock.mem_objectBlocks_self : ∀ b : ObjectBlock C, b ∈ b.objectBlocks
  | .mk info optBlocks => by
    rw [objectBlocks]
    exact List.mem_append_right _ List.mem_cons_self

theorem ObjectBlock.mem_innermost_of_inner {info : ObjectBlockInfo C} {blocks : Blocks C}
    {l : ObjectBlock C} (hl : l ∈ blocks.objectBlocks) (h : l.isInnermost = true) :
    l ∈ (ObjectBlock.mk info (.blocks blocks)).innermost := by
  refine List.mem_filter.mpr ⟨?_, h⟩
  rw [objectBlocks, OptBlocks.objectBlocks]
  exact List.mem_append_left _ hl

end ObjectBlocks

/-! ## 3. What must not be left out -/

section Needs

variable {C : Type}

mutual

/-- Inner blocks, and blocks with inner blocks, are related to the substrate; the latter with
`part_of`. -/
def ObjectBlock.Focused : ObjectBlock C → Bool → Prop
  | .mk info optBlocks, nested => (nested = true → info.msrc.universeOrSubstrate = .kMSNSubstrate) ∧
    (optBlocks.isNull = false → info.msrc = ⟨.kMSROPartOf, .kMSNSubstrate⟩) ∧ optBlocks.Focused

def OptBlocks.Focused : OptBlocks C → Prop
  | .null => True
  | .blocks b => b.Focused true

def Block.Focused : Block C → Bool → Prop
  | .gapBlock _, _ => True
  | .optGapBlock _, _ => True
  | .powerBlock _, _ => True
  | .objectBlock b, nested => b.Focused nested
  | .objectBlockNOTEXIST b, nested => b.Focused nested

def BlockString0.Focused : BlockString0 C → Bool → Prop
  | .block b, nested => b.Focused nested
  | .blockString b, nested => b.Focused nested

def BlockString1.Focused : BlockString1 C → Bool → Prop
  | .nonStar b, nested => b.Focused nested
  | .star b _, nested => b.Focused nested

def BlockString2.Focused : BlockString2 C → Bool → Prop
  | .blockString1 _ b, nested => b.Focused nested
  | .sequence _ b rest, nested => b.Focused nested ∧ rest.Focused nested

def BlockString.Focused : BlockString C → Bool → Prop
  | .blockString2 b, nested => b.Focused nested
  | .or b rest, nested => b.Focused nested ∧ rest.Focused nested

def ObjectBlockString.Focused : ObjectBlockString C → Bool → Prop
  | .objectBlock b, nested => b.Focused nested
  | .append bs b, nested => bs.Focused nested ∧ b.Focused nested

def Blocks.Focused : Blocks C → Bool → Prop
  | .blockString _ b, nested => b.Focused nested
  | .unorderedGroup b, nested => b.Focused nested

end

/-- Where the relation of the block looks for objects. -/
def ObjectBlockInfo.reach (info : ObjectBlockInfo C) (Su : SetOfMonads) : Set Int :=
  match info.msrc.universeOrSubstrate with
  | .kMSNSubstrate => Su.mem
  | .kMSNUniverse => Set.Icc Su.first Su.last

variable (holds : C → MonadedObject → Bool) (f g : ObjectBlock C → List MonadedObject)
  (Su : SetOfMonads)

/-- The object may have a part in an answer. -/
def ObjectBlock.Needs (b : ObjectBlock C) (o : MonadedObject) : Prop :=
  if b.isInnermost = true then (o.monads.mem ∩ b.info.reach Su).Nonempty
  else ∃ l ∈ b.innermost, ∃ o' ∈ f l, (o.monads.mem ∩ Set.Icc o'.first o'.last).Nonempty

/-- The object satisfies the feature constraints. -/
def ObjectBlockInfo.Satisfied (info : ObjectBlockInfo C) (o : MonadedObject) : Prop :=
  ∀ c, info.featureConstraints = some c → c.eval (fun c => holds c o) = true

/-- The first inst has of the second what may have a part in an answer, in the same order. -/
def ObjectBlock.Narrowed (b : ObjectBlock C) : Prop :=
  ∃ p : MonadedObject → Bool, f b = (g b).filter p ∧
    ∀ o ∈ g b, b.info.Satisfied holds o → b.Needs f Su o → p o = true

end Needs

/-! ## 4. An answer has an object of an innermost block in it -/

section Answers

variable {C : Type} {holds : C → MonadedObject → Bool} {f g : ObjectBlock C → List MonadedObject}
  {allM1 U Su top : SetOfMonads} {Sm maxRange : Int} {hasORU : C → Bool}

/-- One of the blocks has no inner blocks and is related to the substrate, and an object of it
meets the substrate. -/
def HasInnermost (holds : C → MonadedObject → Bool) (g : ObjectBlock C → List MonadedObject)
    (allM1 Su : SetOfMonads) (bs : List (ObjectBlock C)) : Prop :=
  ∃ l ∈ bs, l.isInnermost = true ∧ l.info.msrc.universeOrSubstrate = .kMSNSubstrate ∧
    ∃ o ∈ g l, o.IsIn allM1 ∧ l.info.Satisfied holds o ∧ (o.monads.mem ∩ Su.mem).Nonempty

/-- More substrate and more blocks to choose from. -/
theorem HasInnermost.mono {bs bs' : List (ObjectBlock C)} {Su' : SetOfMonads}
    (h : HasInnermost holds g allM1 Su bs) (hSu : Su.mem ⊆ Su'.mem) (hsub : ∀ b ∈ bs, b ∈ bs') :
    HasInnermost holds g allM1 Su' bs' := by
  obtain ⟨l, hl, hinnermost, hsubstrate, o, ho, hin, hsat, hmeets⟩ := h
  exact ⟨l, hsub l hl, hinnermost, hsubstrate, o, ho, hin, hsat,
    hmeets.mono (Set.inter_subset_inter_right _ hSu)⟩

/-- Whichever relation a block asks for, an object that has it to a set of monads meets the set. -/
theorem meets_of_relates {o : MonadedObject} (ho : o.IsIn allM1)
    {operation : EMonadSetRelationOperation} {A : Set Int}
    (h : operation.Relates o.monads.mem A) : (o.monads.mem ∩ A).Nonempty := by
  have hleast := ho.repInv.isLeast_first ho.ne_nil
  cases operation with
  | kMSROPartOf => exact ⟨_, hleast.1, h hleast.1⟩
  | kMSROStartsIn =>
    obtain ⟨m, hm, hA⟩ := h
    exact ⟨m, hm.1, hA⟩
  | kMSROOverlap => exact h

/-- An object that is part of the substrate leaves its inner blocks no more monads than these. -/
theorem subset_of_partOf {o : MonadedObject} {c : MonadSetRelationClause}
    (hc : c = ⟨.kMSROPartOf, .kMSNSubstrate⟩) (h : c.Holds o.monads.mem U.mem Su.mem) :
    o.monads.mem ⊆ Su.mem := by
  subst hc
  exact h

theorem prependToAll_ne_nil {straw : Straw} {los : List Straw} (h : prependToAll straw los ≠ []) :
    los ≠ [] := by
  rintro rfl
  exact h rfl

/-- A straw of a sequence comes from a straw of each part. The lemmas on answers follow one of them.
-/
theorem exists_ne_nil_of_flatMap {α β : Type*} {l : List α} {F : α → List β}
    (h : l.flatMap F ≠ []) : ∃ x ∈ l, F x ≠ [] := by
  by_contra hnone
  refine h (List.flatMap_eq_nil_iff.mpr fun x hx => ?_)
  by_contra hne
  exact hnone ⟨x, hx, hne⟩

/-- An object block with inner blocks gives straws only where these do. -/
theorem withInner_ne_nil {inner : Option Sheaf} {mo : Option Sheaf → MatchedObject}
    (h : withInner inner mo ≠ []) : inner.any Sheaf.isFail = false := by
  by_contra hfail
  rw [withInner, if_pos (by simpa using hfail)] at h
  exact h rfl

/-- Other insts leave the power blocks where they are. -/
theorem getPowerBlock_withInsts : ∀ b : BlockString1 C,
    (b.withInsts f).getPowerBlock = b.getPowerBlock
  | .nonStar (.block (.gapBlock _)) => rfl
  | .nonStar (.block (.optGapBlock _)) => rfl
  | .nonStar (.block (.powerBlock _)) => rfl
  | .nonStar (.block (.objectBlock _)) => rfl
  | .nonStar (.block (.objectBlockNOTEXIST _)) => rfl
  | .nonStar (.blockString _) => rfl
  | .star (.block (.gapBlock _)) _ => rfl
  | .star (.block (.optGapBlock _)) _ => rfl
  | .star (.block (.powerBlock _)) _ => rfl
  | .star (.block (.objectBlock _)) _ => rfl
  | .star (.block (.objectBlockNOTEXIST _)) _ => rfl
  | .star (.blockString _) _ => rfl

open Classical in
mutual

theorem ObjectBlock.hasInnermost : ∀ (b : ObjectBlock C), (b.withInsts g).Plain allM1 →
    b.canChooseAQStrategyInnermostFirst hasORU = true → b.Focused true →
      ∀ {U Su : SetOfMonads} {Sm : Int}, (b.withInsts g).straws holds U Su Sm ≠ [] →
        HasInnermost holds g allM1 Su b.objectBlocks
  | .mk info .null, hplain, _, hfocused, U, Su, Sm, h => by
    rw [ObjectBlock.withInsts, ObjectBlock.straws] at h
    obtain ⟨o, ho, -⟩ := exists_ne_nil_of_flatMap h
    rw [List.mem_filter, decide_eq_true_eq] at ho
    obtain ⟨hog, -, -, hholds, hsat⟩ := ho
    have hin : o.IsIn allM1 := hplain.1.objects o hog
    have hsubstrate := hfocused.1 rfl
    refine ⟨_, ObjectBlock.mem_objectBlocks_self _, rfl, hsubstrate, o, hog, hin, hsat, ?_⟩
    rw [MonadSetRelationClause.Holds] at hholds
    dsimp only at hholds
    rw [hsubstrate] at hholds
    exact meets_of_relates hin hholds
  | .mk info (.blocks inner), hplain, hcan, hfocused, U, Su, Sm, h => by
    rw [ObjectBlock.withInsts, ObjectBlock.straws] at h
    obtain ⟨o, ho, hinner⟩ := exists_ne_nil_of_flatMap h
    rw [List.mem_filter, decide_eq_true_eq] at ho
    obtain ⟨-, -, -, hholds, -⟩ := ho
    have hsubset : o.monads.mem ⊆ Su.mem := subset_of_partOf (hfocused.2.1 rfl) hholds
    have hfail := withInner_ne_nil hinner
    rw [OptBlocks.withInsts, OptBlocks.sheaf, Option.any_some] at hfail
    rw [ObjectBlock.canChooseAQStrategyInnermostFirst, Bool.and_eq_true] at hcan
    refine (Blocks.hasInnermost inner hplain.2 hcan.2 hfocused.2.2 hfail).mono hsubset ?_
    intro b hb
    rw [ObjectBlock.objectBlocks]
    exact List.mem_append_left _ hb

theorem Block.hasInnermost : ∀ (b : Block C), (b.withInsts g).Plain allM1 →
    b.canChooseAQStrategyInnermostFirst hasORU = true → b.Focused true →
      b.hasObjectBlockInBlockString = true → ∀ {U Su : SetOfMonads} {Sm : Int},
        (b.withInsts g).straws holds U Su Sm ≠ [] → HasInnermost holds g allM1 Su b.objectBlocks
  | .objectBlock b, hplain, hcan, hfocused, _, U, Su, Sm, h => by
    rw [Block.withInsts, Block.straws] at h
    exact ObjectBlock.hasInnermost b hplain hcan hfocused h

theorem BlockString0.hasInnermost : ∀ (b : BlockString0 C), (b.withInsts g).Plain allM1 →
    b.canChooseAQStrategyInnermostFirst hasORU = true → b.Focused true →
      b.hasObjectBlockInBlockString = true → ∀ {U Su : SetOfMonads} {Sm maxRange : Int},
        (b.withInsts g).straws holds U Su Sm maxRange ≠ [] →
          HasInnermost holds g allM1 Su b.objectBlocks
  | .block b, hplain, hcan, hfocused, hhas, U, Su, Sm, maxRange, h => by
    rw [BlockString0.withInsts, BlockString0.straws] at h
    exact Block.hasInnermost b hplain hcan hfocused hhas h
  | .blockString b, hplain, hcan, hfocused, _, U, Su, Sm, maxRange, h => by
    rw [BlockString0.withInsts, BlockString0.straws] at h
    exact BlockString.hasInnermost b hplain hcan hfocused h

theorem BlockString1.hasInnermost : ∀ (b : BlockString1 C), (b.withInsts g).Plain allM1 →
    b.canChooseAQStrategyInnermostFirst hasORU = true → b.Focused true →
      b.hasObjectBlockInBlockString = true → ∀ {U Su : SetOfMonads} {Sm maxRange : Int},
        (b.withInsts g).straws holds U Su Sm maxRange ≠ [] →
          HasInnermost holds g allM1 Su b.objectBlocks
  | .nonStar b, hplain, hcan, hfocused, hhas, U, Su, Sm, maxRange, h => by
    rw [BlockString1.withInsts, BlockString1.straws] at h
    exact BlockString0.hasInnermost b hplain hcan hfocused hhas h

/-- Each rest of a sequence has an object block, so it is enough to look at the last part. -/
theorem BlockString2.hasInnermost : ∀ (b : BlockString2 C), (b.withInsts g).Plain allM1 →
    b.canChooseAQStrategyInnermostFirst hasORU = true → b.Focused true →
      ∀ {U Su : SetOfMonads} {Sm maxRange : Int},
        (b.withInsts g).straws holds U Su Sm maxRange ≠ [] →
          HasInnermost holds g allM1 Su b.objectBlocks
  | .blockString1 node b, hplain, hcan, hfocused, U, Su, Sm, maxRange, h => by
    rw [BlockString2.withInsts, BlockString2.straws] at h
    obtain ⟨hhas, hcan⟩ := Bool.and_eq_true_iff.mp hcan
    exact BlockString1.hasInnermost b hplain hcan hfocused hhas h
  | .sequence node b (.blockString1 node' next), hplain, hcan, hfocused, U, Su, Sm, maxRange,
      h => by
    rw [BlockString2.withInsts, BlockString2.withInsts, BlockString2.straws] at h
    rw [BlockString2.canChooseAQStrategyInnermostFirst, Bool.and_eq_true, Bool.and_eq_true] at hcan
    obtain ⟨first, -, hfirst⟩ := exists_ne_nil_of_flatMap h
    exact (BlockString2.hasInnermost (.blockString1 node' next) hplain.2 hcan.2.2 hfocused.2
      (prependToAll_ne_nil hfirst)).mono subset_rfl fun b hb => List.mem_append_right _ hb
  | .sequence node b (.sequence node' next nextButOne), hplain, hcan, hfocused, U, Su, Sm, maxRange,
      h => by
    rw [BlockString2.withInsts, BlockString2.withInsts, BlockString2.straws,
      getPowerBlock_withInsts] at h
    rw [BlockString2.withInsts, BlockString2.withInsts, BlockString2.Plain,
      getPowerBlock_withInsts] at hplain
    rw [BlockString2.canChooseAQStrategyInnermostFirst, Bool.and_eq_true, Bool.and_eq_true] at hcan
    have hplain' := hplain.2
    have hcan' := hcan.2.2
    cases hpower : next.getPowerBlock with
    | some power =>
      rw [hpower] at h hplain'
      rw [BlockString2.canChooseAQStrategyInnermostFirst, Bool.and_eq_true, Bool.and_eq_true]
        at hcan'
      obtain ⟨first, -, hfirst⟩ := exists_ne_nil_of_flatMap h
      obtain ⟨m, -, hm⟩ := exists_ne_nil_of_flatMap hfirst
      exact (BlockString2.hasInnermost nextButOne hplain' hcan'.2.2 hfocused.2.2
        (prependToAll_ne_nil hm)).mono subset_rfl
          fun b hb => List.mem_append_right _ (List.mem_append_right _ hb)
    | none =>
      rw [hpower] at h hplain'
      obtain ⟨first, -, hfirst⟩ := exists_ne_nil_of_flatMap h
      exact (BlockString2.hasInnermost (.sequence node' next nextButOne) hplain' hcan' hfocused.2
        (prependToAll_ne_nil hfirst)).mono subset_rfl fun b hb => List.mem_append_right _ hb

theorem BlockString.hasInnermost : ∀ (b : BlockString C), (b.withInsts g).Plain allM1 →
    b.canChooseAQStrategyInnermostFirst hasORU = true → b.Focused true →
      ∀ {U Su : SetOfMonads} {Sm maxRange : Int},
        (b.withInsts g).straws holds U Su Sm maxRange ≠ [] →
          HasInnermost holds g allM1 Su b.objectBlocks
  | .blockString2 b, hplain, hcan, hfocused, U, Su, Sm, maxRange, h => by
    rw [BlockString.withInsts, BlockString.straws] at h
    exact BlockString2.hasInnermost b hplain hcan hfocused h
  | .or b rest, hplain, hcan, hfocused, U, Su, Sm, maxRange, h => by
    rw [BlockString.withInsts, BlockString.straws] at h
    obtain ⟨hcan, hcan'⟩ := Bool.and_eq_true_iff.mp hcan
    by_cases hb : (b.withInsts g).straws holds U Su Sm maxRange = []
    · rw [hb, List.nil_append] at h
      exact (BlockString.hasInnermost rest hplain.2 hcan' hfocused.2 h).mono subset_rfl
        fun b hb => List.mem_append_right _ hb
    · exact (BlockString2.hasInnermost b hplain.1 hcan hfocused.1 hb).mono subset_rfl
        fun b hb => List.mem_append_left _ hb

/-- Each object block of a group has an answer; one is enough. -/
theorem ObjectBlockString.hasInnermost : ∀ (b : ObjectBlockString C),
    (b.withInsts g).Plain allM1 → b.canChooseAQStrategyInnermostFirst hasORU = true →
      b.Focused true → ∀ {U Su : SetOfMonads}, [] ∉ (b.withInsts g).strawLists holds U Su →
        HasInnermost holds g allM1 Su b.objectBlocks
  | .objectBlock b, hplain, hcan, hfocused, U, Su, h => by
    rw [ObjectBlockString.withInsts, ObjectBlockString.strawLists, List.mem_singleton] at h
    obtain ⟨m, -, hm⟩ := exists_ne_nil_of_flatMap (Ne.symm h)
    exact ObjectBlock.hasInnermost b hplain hcan hfocused hm
  | .append bs b, hplain, hcan, hfocused, U, Su, h => by
    rw [ObjectBlockString.withInsts, ObjectBlockString.strawLists, List.mem_append, not_or,
      List.mem_singleton] at h
    obtain ⟨hcan, -⟩ := Bool.and_eq_true_iff.mp hcan
    obtain ⟨m, -, hm⟩ := exists_ne_nil_of_flatMap (Ne.symm h.2)
    exact (ObjectBlock.hasInnermost b hplain.2 hcan hfocused.2 hm).mono subset_rfl
      fun b hb => List.mem_append_right _ hb

theorem Blocks.hasInnermost : ∀ (b : Blocks C), (b.withInsts g).Plain allM1 →
    b.canChooseAQStrategyInnermostFirst hasORU = true → b.Focused true →
      ∀ {U Su : SetOfMonads} {maxRange : Int},
        ((b.withInsts g).sheaf holds U Su maxRange).isFail = false →
          HasInnermost holds g allM1 Su b.objectBlocks
  | .blockString usingRange b, hplain, hcan, hfocused, U, Su, maxRange, h => by
    rw [Blocks.withInsts, Blocks.sheaf] at h
    split at h
    · cases h
    · rename_i hne
      obtain ⟨m, -, hm⟩ := exists_ne_nil_of_flatMap hne
      exact BlockString.hasInnermost b hplain.2 hcan hfocused hm
  | .unorderedGroup b, hplain, hcan, hfocused, U, Su, maxRange, h => by
    rw [Blocks.withInsts, Blocks.sheaf] at h
    split at h
    · cases h
    · rename_i hmem
      exact ObjectBlockString.hasInnermost b hplain hcan hfocused hmem

end

/-! ## 5. The meaning does not change -/

/-- The objects left out of an inst may be any that give no answer: those that are kept give the
same answers in the same order. -/
theorem filter_flatMap_of_kept {α β : Type*} {p P : α → Bool} {F G : α → List β} : ∀ {l : List α},
    (∀ x ∈ l, P x = true → F x = G x) → (∀ x ∈ l, P x = true → G x ≠ [] → p x = true) →
      ((l.filter p).filter P).flatMap F = (l.filter P).flatMap G
  | [], _, _ => rfl
  | x :: l, hFG, hkept => by
    have ih := filter_flatMap_of_kept (fun y hy => hFG y (List.mem_cons_of_mem x hy))
      fun y hy => hkept y (List.mem_cons_of_mem x hy)
    have hx := hFG x List.mem_cons_self
    have hp := hkept x List.mem_cons_self
    by_cases hP : P x = true
    · rw [List.filter_cons_of_pos hP, List.flatMap_cons, ← ih]
      by_cases hpx : p x = true
      · rw [List.filter_cons_of_pos hpx, List.filter_cons_of_pos hP, List.flatMap_cons, hx hP]
      · rw [List.filter_cons_of_neg hpx, not_imp_comm.mp (hp hP) hpx, List.nil_append]
    · rw [List.filter_cons_of_neg hP, ← ih]
      by_cases hpx : p x = true
      · rw [List.filter_cons_of_pos hpx, List.filter_cons_of_neg hP]
      · rw [List.filter_cons_of_neg hpx]

theorem MonadedObject.IsIn.subset_range {o : MonadedObject} (h : o.IsIn allM1) :
    o.monads.mem ⊆ Set.Icc o.first o.last := by
  intro m hm
  rw [h.first, h.last]
  exact ⟨h.repInv.mem_bounds.1 hm, h.repInv.mem_bounds.2 hm⟩

/-- The universe of the inner blocks. -/
theorem MonadedObject.IsIn.mem_range {o : MonadedObject} (h : o.IsIn allM1) :
    (monadsBetween o.first o.last).mem = Set.Icc o.first o.last := by
  obtain ⟨som, hsom, -, hmem⟩ := StartMonadInfo.add_spec SetOfMonads.repInv_empty
    (show o.first ≤ o.last by
      rw [h.first, h.last]
      exact h.repInv.first_le_last h.ne_nil)
    (h.first ▸ (SetOfMonads.inRange_of_mem_cover h.repInv.inRange
      (h.repInv.isLeast_first h.ne_nil).1).1)
    (h.last ▸ (SetOfMonads.inRange_of_mem_cover h.repInv.inRange
      (h.repInv.isGreatest_last h.ne_nil).1).2)
  rw [monadsBetween_of_add hsom, hmem, SetOfMonads.mem_empty, Set.empty_union]

/-- A universe and substrate of a part of a query on `top`. -/
structure Inside (top U Su : SetOfMonads) : Prop where
  inUniverse : U.mem ⊆ Set.Icc top.first top.last
  inSubstrate : Su.mem ⊆ top.mem

/-- The inner blocks of an object are asked between its first and last monad and on its own monads,
so they stay inside what the query is asked on. -/
theorem Inside.ofObject (htop : top.RepInv) {o : MonadedObject} (ho : o.IsIn allM1)
    (hsubset : o.monads.mem ⊆ top.mem) :
    Inside top (monadsBetween o.first o.last) o.monads := by
  refine ⟨?_, hsubset⟩
  rw [ho.mem_range, ho.first, ho.last]
  exact Set.Icc_subset_Icc
    (htop.mem_bounds.1 (hsubset (ho.repInv.isLeast_first ho.ne_nil).1))
    (htop.mem_bounds.2 (hsubset (ho.repInv.isGreatest_last ho.ne_nil).1))

/-- What a block accepts, meets what its relation reaches. -/
theorem meets_reach {info : ObjectBlockInfo C} (h : Inside top U Su) {o : MonadedObject}
    (ho : o.IsIn allM1) (hholds : info.msrc.Holds o.monads.mem U.mem Su.mem) :
    (o.monads.mem ∩ info.reach top).Nonempty := by
  rw [ObjectBlockInfo.reach]
  rw [MonadSetRelationClause.Holds] at hholds
  cases hname : info.msrc.universeOrSubstrate with
  | kMSNSubstrate =>
    rw [hname] at hholds
    exact (meets_of_relates ho hholds).mono (Set.inter_subset_inter_right _ h.inSubstrate)
  | kMSNUniverse =>
    rw [hname] at hholds
    exact (meets_of_relates ho hholds).mono (Set.inter_subset_inter_right _ h.inUniverse)

/-- An object around an answer is needed. -/
theorem needs_of_hasInnermost {info : ObjectBlockInfo C} {inner : Blocks C}
    (hnarrowed : ∀ b ∈ inner.objectBlocks, b.Narrowed holds f g top) {o : MonadedObject}
    (hsubset : o.monads.mem ⊆ top.mem)
    (h : HasInnermost holds g allM1 o.monads inner.objectBlocks) :
    (ObjectBlock.mk info (.blocks inner)).Needs f top o := by
  obtain ⟨l, hl, hinnermost, hsubstrate, o', ho', hin, hsat, hmeets⟩ := h
  obtain ⟨p, hp, hkept⟩ := hnarrowed l hl
  have hneeded : l.Needs f top o' := by
    rw [ObjectBlock.Needs, if_pos hinnermost, ObjectBlockInfo.reach, hsubstrate]
    exact hmeets.mono (Set.inter_subset_inter_right _ hsubset)
  rw [ObjectBlock.Needs, if_neg (by exact Bool.false_ne_true)]
  refine ⟨l, ObjectBlock.mem_innermost_of_inner hl hinnermost, o', ?_, ?_⟩
  · rw [hp]
    exact List.mem_filter.mpr ⟨ho', hkept o' ho' hsat hneeded⟩
  · obtain ⟨m, hm', hm⟩ := hmeets
    exact ⟨m, hm, hin.subset_range hm'⟩

open Classical in
mutual

theorem ObjectBlock.straws_withInsts (htop : top.RepInv) : ∀ (b : ObjectBlock C) {nested : Bool},
    (∀ b' ∈ b.objectBlocks, b'.Narrowed holds f g top) → (b.withInsts g).Plain allM1 →
    b.canChooseAQStrategyInnermostFirst hasORU = true → b.Focused nested →
      ∀ {U Su : SetOfMonads}, Inside top U Su → ∀ Sm : Int,
        (b.withInsts f).straws holds U Su Sm = (b.withInsts g).straws holds U Su Sm
  | .mk info .null, nested, hnarrowed, hplain, _, _, U, Su, hin, Sm => by
    obtain ⟨p, hp, hkept⟩ := hnarrowed _ (ObjectBlock.mem_objectBlocks_self _)
    rw [ObjectBlock.withInsts, ObjectBlock.withInsts, ObjectBlock.straws, ObjectBlock.straws]
    dsimp only
    rw [hp]
    refine filter_flatMap_of_kept (fun o _ _ => rfl) fun o ho haccepts _ => hkept o ho ?_ ?_
    · rw [decide_eq_true_eq] at haccepts
      exact haccepts.2.2.2
    · rw [decide_eq_true_eq] at haccepts
      rw [ObjectBlock.Needs, if_pos (show (ObjectBlock.mk info .null).isInnermost = true from rfl)]
      exact meets_reach hin (hplain.1.objects o ho) haccepts.2.2.1
  | .mk info (.blocks inner), nested, hnarrowed, hplain, hcan, hfocused, U, Su, hin, Sm => by
    obtain ⟨p, hp, hkept⟩ := hnarrowed _ (ObjectBlock.mem_objectBlocks_self _)
    have hinner : ∀ b ∈ inner.objectBlocks, b.Narrowed holds f g top := fun b hb =>
      hnarrowed b (by
        rw [ObjectBlock.objectBlocks]
        exact List.mem_append_left _ hb)
    rw [ObjectBlock.canChooseAQStrategyInnermostFirst, Bool.and_eq_true] at hcan
    rw [ObjectBlock.withInsts, ObjectBlock.withInsts, ObjectBlock.straws, ObjectBlock.straws]
    dsimp only
    rw [hp]
    have hsubset : ∀ o : MonadedObject, info.msrc.Holds o.monads.mem U.mem Su.mem →
        o.monads.mem ⊆ top.mem := fun o ho =>
      (subset_of_partOf (hfocused.2.1 rfl) ho).trans hin.inSubstrate
    refine filter_flatMap_of_kept (fun o ho haccepts => ?_) fun o ho haccepts hne => ?_
    · rw [decide_eq_true_eq] at haccepts
      rw [OptBlocks.withInsts, OptBlocks.withInsts, OptBlocks.sheaf, OptBlocks.sheaf,
        Blocks.sheaf_withInsts htop inner hinner hplain.2 hcan.2 hfocused.2.2
          (Inside.ofObject htop (hplain.1.objects o ho) (hsubset o haccepts.2.2.1)) maxMonad]
    · rw [decide_eq_true_eq] at haccepts
      have hfail := withInner_ne_nil hne
      rw [OptBlocks.withInsts, OptBlocks.sheaf, Option.any_some] at hfail
      have hhas := Blocks.hasInnermost inner hplain.2 hcan.2 hfocused.2.2 hfail
      exact hkept o ho haccepts.2.2.2
        (needs_of_hasInnermost hinner (hsubset o haccepts.2.2.1) hhas)

theorem Block.straws_withInsts (htop : top.RepInv) : ∀ (b : Block C) {nested : Bool},
    (∀ b' ∈ b.objectBlocks, b'.Narrowed holds f g top) → (b.withInsts g).Plain allM1 →
    b.canChooseAQStrategyInnermostFirst hasORU = true → b.Focused nested →
      ∀ {U Su : SetOfMonads}, Inside top U Su → ∀ Sm : Int,
        (b.withInsts f).straws holds U Su Sm = (b.withInsts g).straws holds U Su Sm
  | .gapBlock (.mk retrieval obb .null), _, _, _, _, _, _, _, _, _ => rfl
  | .optGapBlock (.mk retrieval obb .null), _, _, _, _, _, _, _, _, _ => rfl
  | .gapBlock (.mk retrieval obb (.blocks _)), _, _, _, hcan, _, _, _, _, _ => by cases hcan
  | .optGapBlock (.mk retrieval obb (.blocks _)), _, _, _, hcan, _, _, _, _, _ => by cases hcan
  | .powerBlock _, _, _, _, _, _, _, _, _, _ => rfl
  | .objectBlock b, _, hnarrowed, hplain, hcan, hfocused, _, _, hin, Sm => by
    rw [Block.withInsts, Block.withInsts, Block.straws, Block.straws]
    exact ObjectBlock.straws_withInsts htop b hnarrowed hplain hcan hfocused hin Sm
  | .objectBlockNOTEXIST _, _, _, _, hcan, _, _, _, _, _ => by cases hcan

theorem BlockString0.straws_withInsts (htop : top.RepInv) : ∀ (b : BlockString0 C) {nested : Bool},
    (∀ b' ∈ b.objectBlocks, b'.Narrowed holds f g top) → (b.withInsts g).Plain allM1 →
    b.canChooseAQStrategyInnermostFirst hasORU = true → b.Focused nested →
      ∀ {U Su : SetOfMonads}, Inside top U Su → ∀ Sm maxRange : Int,
        (b.withInsts f).straws holds U Su Sm maxRange
          = (b.withInsts g).straws holds U Su Sm maxRange
  | .block b, _, hnarrowed, hplain, hcan, hfocused, _, _, hin, Sm, maxRange => by
    rw [BlockString0.withInsts, BlockString0.withInsts, BlockString0.straws, BlockString0.straws]
    exact Block.straws_withInsts htop b hnarrowed hplain hcan hfocused hin Sm
  | .blockString b, _, hnarrowed, hplain, hcan, hfocused, _, _, hin, Sm, maxRange => by
    rw [BlockString0.withInsts, BlockString0.withInsts, BlockString0.straws, BlockString0.straws]
    exact BlockString.straws_withInsts htop b hnarrowed hplain hcan hfocused hin Sm maxRange

theorem BlockString1.straws_withInsts (htop : top.RepInv) : ∀ (b : BlockString1 C) {nested : Bool},
    (∀ b' ∈ b.objectBlocks, b'.Narrowed holds f g top) → (b.withInsts g).Plain allM1 →
    b.canChooseAQStrategyInnermostFirst hasORU = true → b.Focused nested →
      ∀ {U Su : SetOfMonads}, Inside top U Su → ∀ Sm maxRange : Int,
        (b.withInsts f).straws holds U Su Sm maxRange
          = (b.withInsts g).straws holds U Su Sm maxRange
  | .nonStar b, _, hnarrowed, hplain, hcan, hfocused, _, _, hin, Sm, maxRange => by
    rw [BlockString1.withInsts, BlockString1.withInsts, BlockString1.straws, BlockString1.straws]
    exact BlockString0.straws_withInsts htop b hnarrowed hplain hcan hfocused hin Sm maxRange
  | .star _ _, _, _, _, hcan, _, _, _, _, _, _ => by cases hcan

theorem BlockString2.straws_withInsts (htop : top.RepInv) : ∀ (b : BlockString2 C) {nested : Bool},
    (∀ b' ∈ b.objectBlocks, b'.Narrowed holds f g top) → (b.withInsts g).Plain allM1 →
    b.canChooseAQStrategyInnermostFirst hasORU = true → b.Focused nested →
      ∀ {U Su : SetOfMonads}, Inside top U Su → ∀ Sm maxRange : Int,
        (b.withInsts f).straws holds U Su Sm maxRange
          = (b.withInsts g).straws holds U Su Sm maxRange
  | .blockString1 node b, _, hnarrowed, hplain, hcan, hfocused, _, _, hin, Sm, maxRange => by
    rw [BlockString2.canChooseAQStrategyInnermostFirst, Bool.and_eq_true] at hcan
    rw [BlockString2.withInsts, BlockString2.withInsts, BlockString2.straws, BlockString2.straws]
    exact BlockString1.straws_withInsts htop b hnarrowed hplain hcan.2 hfocused hin Sm maxRange
  | .sequence node b (.blockString1 node' next), _, hnarrowed, hplain, hcan, hfocused, U, Su, hin,
      Sm, maxRange => by
    rw [BlockString2.objectBlocks, List.forall_mem_append] at hnarrowed
    rw [BlockString2.canChooseAQStrategyInnermostFirst, Bool.and_eq_true, Bool.and_eq_true] at hcan
    have hrest := BlockString2.straws_withInsts htop (.blockString1 node' next) hnarrowed.2 hplain.2
      hcan.2.2 hfocused.2 hin
    simp only [BlockString2.withInsts] at hrest ⊢
    rw [BlockString2.straws, BlockString2.straws,
      BlockString1.straws_withInsts htop b hnarrowed.1 hplain.1 hcan.2.1 hfocused.1 hin Sm maxRange]
    exact List.flatMap_congr fun first _ => by rw [hrest]
  | .sequence node b (.sequence node' next nextButOne), nested, hnarrowed, hplain, hcan, hfocused,
      U, Su, hin, Sm, maxRange => by
    rw [BlockString2.objectBlocks, List.forall_mem_append] at hnarrowed
    rw [BlockString2.canChooseAQStrategyInnermostFirst, Bool.and_eq_true, Bool.and_eq_true] at hcan
    rw [BlockString2.withInsts, BlockString2.withInsts, BlockString2.Plain,
      getPowerBlock_withInsts] at hplain
    have hplain' := hplain.2
    have hcan' := hcan.2.2
    have hnarrowed' := hnarrowed.2
    have hfirst := BlockString1.straws_withInsts htop b hnarrowed.1 hplain.1 hcan.2.1 hfocused.1
      hin Sm maxRange
    rw [BlockString2.withInsts, BlockString2.withInsts, BlockString2.withInsts,
      BlockString2.withInsts, BlockString2.straws, BlockString2.straws, getPowerBlock_withInsts,
      getPowerBlock_withInsts, hfirst]
    cases hpower : next.getPowerBlock with
    | some power =>
      rw [hpower] at hplain'
      rw [BlockString2.objectBlocks, List.forall_mem_append] at hnarrowed'
      rw [BlockString2.canChooseAQStrategyInnermostFirst, Bool.and_eq_true, Bool.and_eq_true]
        at hcan'
      have hrest := BlockString2.straws_withInsts htop nextButOne hnarrowed'.2 hplain' hcan'.2.2
        hfocused.2.2 hin
      exact List.flatMap_congr fun first _ => List.flatMap_congr fun m _ => by rw [hrest]
    | none =>
      rw [hpower] at hplain'
      have hrest := BlockString2.straws_withInsts htop (.sequence node' next nextButOne) hnarrowed'
        hplain' hcan' hfocused.2 hin
      rw [BlockString2.withInsts, BlockString2.withInsts] at hrest
      exact List.flatMap_congr fun first _ => by rw [hrest]

theorem BlockString.straws_withInsts (htop : top.RepInv) : ∀ (b : BlockString C) {nested : Bool},
    (∀ b' ∈ b.objectBlocks, b'.Narrowed holds f g top) → (b.withInsts g).Plain allM1 →
    b.canChooseAQStrategyInnermostFirst hasORU = true → b.Focused nested →
      ∀ {U Su : SetOfMonads}, Inside top U Su → ∀ Sm maxRange : Int,
        (b.withInsts f).straws holds U Su Sm maxRange
          = (b.withInsts g).straws holds U Su Sm maxRange
  | .blockString2 b, _, hnarrowed, hplain, hcan, hfocused, _, _, hin, Sm, maxRange => by
    rw [BlockString.withInsts, BlockString.withInsts, BlockString.straws, BlockString.straws]
    exact BlockString2.straws_withInsts htop b hnarrowed hplain hcan hfocused hin Sm maxRange
  | .or b rest, _, hnarrowed, hplain, hcan, hfocused, _, _, hin, Sm, maxRange => by
    rw [BlockString.objectBlocks, List.forall_mem_append] at hnarrowed
    rw [BlockString.canChooseAQStrategyInnermostFirst, Bool.and_eq_true] at hcan
    rw [BlockString.withInsts, BlockString.withInsts, BlockString.straws, BlockString.straws,
      BlockString2.straws_withInsts htop b hnarrowed.1 hplain.1 hcan.1 hfocused.1 hin Sm maxRange,
      BlockString.straws_withInsts htop rest hnarrowed.2 hplain.2 hcan.2 hfocused.2 hin Sm maxRange]

theorem ObjectBlockString.strawLists_withInsts (htop : top.RepInv) :
    ∀ (b : ObjectBlockString C) {nested : Bool},
    (∀ b' ∈ b.objectBlocks, b'.Narrowed holds f g top) → (b.withInsts g).Plain allM1 →
    b.canChooseAQStrategyInnermostFirst hasORU = true → b.Focused nested →
      ∀ {U Su : SetOfMonads}, Inside top U Su →
        (b.withInsts f).strawLists holds U Su = (b.withInsts g).strawLists holds U Su
  | .objectBlock b, _, hnarrowed, hplain, hcan, hfocused, _, _, hin => by
    have hb := ObjectBlock.straws_withInsts htop b hnarrowed hplain hcan hfocused hin
    rw [ObjectBlockString.withInsts, ObjectBlockString.withInsts, ObjectBlockString.strawLists,
      ObjectBlockString.strawLists]
    exact congrArg (fun l => [l]) (List.flatMap_congr fun m _ => hb m)
  | .append bs b, _, hnarrowed, hplain, hcan, hfocused, _, _, hin => by
    rw [ObjectBlockString.objectBlocks, List.forall_mem_append] at hnarrowed
    rw [ObjectBlockString.canChooseAQStrategyInnermostFirst, Bool.and_eq_true] at hcan
    have hb := ObjectBlock.straws_withInsts htop b hnarrowed.2 hplain.2 hcan.1 hfocused.2 hin
    rw [ObjectBlockString.withInsts, ObjectBlockString.withInsts, ObjectBlockString.strawLists,
      ObjectBlockString.strawLists, ObjectBlockString.strawLists_withInsts htop bs hnarrowed.1
        hplain.1 hcan.2 hfocused.1 hin]
    exact congrArg (fun l => _ ++ [l]) (List.flatMap_congr fun m _ => hb m)

/-- **What is left means the same.** -/
theorem Blocks.sheaf_withInsts (htop : top.RepInv) : ∀ (b : Blocks C) {nested : Bool},
    (∀ b' ∈ b.objectBlocks, b'.Narrowed holds f g top) → (b.withInsts g).Plain allM1 →
    b.canChooseAQStrategyInnermostFirst hasORU = true → b.Focused nested →
      ∀ {U Su : SetOfMonads}, Inside top U Su → ∀ maxRange : Int,
        (b.withInsts f).sheaf holds U Su maxRange = (b.withInsts g).sheaf holds U Su maxRange
  | .blockString usingRange b, _, hnarrowed, hplain, hcan, hfocused, U, Su, hin, maxRange => by
    have hb := BlockString.straws_withInsts htop b hnarrowed hplain.2 hcan hfocused hin
    rw [Blocks.withInsts, Blocks.withInsts, Blocks.sheaf, Blocks.sheaf,
      List.flatMap_congr fun m (_ : m ∈ U.constMonads) => hb m maxRange]
  | .unorderedGroup b, _, hnarrowed, hplain, hcan, hfocused, U, Su, hin, maxRange => by
    rw [Blocks.withInsts, Blocks.withInsts, Blocks.sheaf, Blocks.sheaf,
      ObjectBlockString.strawLists_withInsts htop b hnarrowed hplain hcan hfocused hin]

end

end Answers

end Emdros
