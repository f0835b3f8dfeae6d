/-
# The evaluator (`mql_R.cpp`)

The functions `R_...` that answer a query, by recursion on its blocks.  Each takes a universe `U`, a
substrate `Su` and mostly a start monad `Sm`, and returns a list of straws: an empty list is
failure.

What a function does apart from calling others on inner blocks is a definition of its own, with
those calls as parameters; the recursion that ties them is in section 4.  The start monads that
an iterator yields, and what the execution environment keeps for object references, are
parameters of the whole (`QueryEnv`).
-/
import Emdros.MQL.Query

namespace Emdros

open Partial

/-! ## 1. The environment -/

/-- What the evaluator uses of the rest: `getSMI` of the three classes on which it is called,
and the state behind object references. -/
structure QueryEnv (C S σ : Type) where
  getSMIBlockString : BlockString C → SetOfMonads → SetOfMonads → Int → Eval σ (List Int)
  getSMIBlockString1 : BlockString1 C → SetOfMonads → SetOfMonads → Int → Eval σ (List Int)
  getSMIObjectBlock : ObjectBlock C → SetOfMonads → SetOfMonads → Int → Bool →
    Eval σ (List Int)
  setORUStraw : Nat → Straw → σ → σ
  retrieveFeatureValues : Nat → MonadedObject → σ → σ
  solutions : FFeatures C → σ → List S
  compare : σ → C → MonadedObject → Option S → Bool

/-- `R_restrict(SOM, monad, result)`. -/
def rRestrict (som : SetOfMonads) (monad : Int) : SetOfMonads :=
  let mm1 := monad - 1
  if som.first ≤ mm1 then som.removeRange som.first mm1 else som

section Evaluator

variable {C S σ : Type} (env : QueryEnv C S σ)

/-! ## 2. Objects, gaps and blocks -/

/-- `R_features`. -/
def rFeatures (info : ObjectBlockInfo C) (pObj : MonadedObject) : Eval σ Bool :=
  match info.featureConstraints with
  | none => pure true
  | some pFFeatures => do
    let s ← get
    if info.hasNonParentORUs then
      pure ((env.solutions pFFeatures s).any fun solution =>
        rFfeatures (env.compare s) pObj (some solution) pFFeatures)
    else pure (rFfeatures (env.compare s) pObj none pFFeatures)

/-- The switch on `FIRST` and `LAST`. -/
def obeysFirstLast (fl : EFirstLast) (o : MonadedObject) (Su : SetOfMonads) : Bool :=
  match fl with
  | .kNoFirstLast => true
  | .kFirst => o.first = Su.first
  | .kLast => o.last = Su.last
  | .kFirstAndLast => o.first = Su.first ∧ o.last = Su.last

/-- Whether an object passes the tests of its block. -/
def doObject (U Su : SetOfMonads) (info : ObjectBlockInfo C) (o : MonadedObject) :
    Eval σ Bool :=
  if obeysFirstLast info.firstLast o Su then do
    let bDoObject ← ofOption (info.msrc.exec o.monads U Su)
    if bDoObject then do
      modify (env.retrieveFeatureValues info.obb.nodeNumber o)
      rFeatures env info o
    else pure false
  else pure false

/-- The inner sheaf: null where there are no inner blocks. -/
def innerSheaf (noOptBlocks : Bool) (rOptBlocks : Eval σ (Option Sheaf)) :
    Eval σ (Option Sheaf) :=
  if noOptBlocks then pure none else rOptBlocks

/-- `R_object_block_inst`: the straws appended to `pResultLOS`.  `rOptBlocks` is
`R_opt_blocks` on the inner blocks, unless there are none. -/
def rObjectBlockInst (U Su : SetOfMonads) (Sm : Int) (info : ObjectBlockInfo C)
    (noOptBlocks : Bool) (rOptBlocks : SetOfMonads → SetOfMonads → Eval σ (Option Sheaf)) :
    Eval σ (List Straw) :=
  ((info.objectsAtSm Sm).takeWhile fun o => o.first = Sm).foldlM (fun resultLOS o => do
    let bDoObject ← doObject env U Su info o
    if bDoObject then do
      let pInner ← innerSheaf noOptBlocks do
        let Uping ← ofOption (SetOfMonads.empty.add o.first o.last)
        rOptBlocks Uping o.monads
      if pInner.any Sheaf.isFail then pure resultLOS
      else pure (resultLOS ++
        [Straw.new.append (MatchedObject.ofObject o.idD o.monads pInner info.obb)])
    else pure resultLOS) []

/-- `R_gap`; `emptyMo` is whether `mo_kind` is `kMOKEMPTY_mo`, else it is `kMOKNIL_mo`.  A null
pointer is `none`. -/
def rGap (Su : SetOfMonads) (Sm : Int) (retrieval : ERetrieval) (obb : ObjectBlockBase)
    (noOptBlocks : Bool) (rOptBlocks : SetOfMonads → SetOfMonads → Eval σ (Option Sheaf))
    (emptyMo : Bool) : Eval σ (Option MatchedObject) := do
  let gap ← ofOption (Su.gapExists Sm)
  match gap with
  | some m => do
    let bNoRetrieve := !(retrieval = .kRetrieve ∨ retrieval = .kRetrieveFocus)
    let somn ← ofOption (SetOfMonads.empty.add Sm m)
    let pInner ← innerSheaf noOptBlocks (rOptBlocks somn somn)
    if pInner.any Sheaf.isFail then pure none
    else pure (some (MatchedObject.ofGap somn obb (!bNoRetrieve)
      (retrieval = .kRetrieveFocus) pInner))
  | none => if emptyMo then pure (some (MatchedObject.ofEmpty (Sm - 1))) else pure none

/-- `R_block` on a gap block. -/
def losOfGap (pMO : Option MatchedObject) : List Straw :=
  match pMO with
  | none => []
  | some mo => [Straw.new.append mo]

/-- The loop of `kObjectBlockNOTEXIST`: whether there is a match at some start monad. -/
def itWasThere (rObjectBlock : Int → Eval σ (List Straw)) : List Int → Eval σ Bool
  | [] => pure false
  | Sm :: smi => do
    let resultLOS ← rObjectBlock Sm
    if !resultLOS.isEmpty then pure true else itWasThere rObjectBlock smi

/-- `R_block` on a `NOTEXIST` object block. -/
def rNOTEXIST (U Su : SetOfMonads) (Sm : Int) (afterNonNOTEXIST : Bool)
    (getSMI : SetOfMonads → SetOfMonads → Int → Eval σ (List Int))
    (rObjectBlock : SetOfMonads → SetOfMonads → Int → Eval σ (List Straw)) :
    Eval σ (List Straw) := do
  let Uping := if afterNonNOTEXIST then rRestrict U Sm else U
  let Suping := if afterNonNOTEXIST then rRestrict Su Sm else Su
  let Smping := if afterNonNOTEXIST then Sm else U.first
  let smi ← getSMI Uping Suping Smping
  let bItWasThere ← itWasThere (rObjectBlock Uping Suping) smi
  if bItWasThere then pure []
  else pure [Straw.new.append (MatchedObject.ofEmpty (Sm - 1))]

/-! ## 3. Strings of blocks -/

/-- Prepend a straw of `block_string1` to the straws that come after it. -/
def prependToAll (bs1Straw : Straw) (bs2LOS : List Straw) : List Straw :=
  (bs2LOS.filter fun straw => !straw.isEmpty).map fun straw => straw.prepend bs1Straw

/-- `R_block_string2_non_power_block`. -/
def rBlockString2NonPowerBlock (node : Nat) (rBlockString1 : Eval σ (List Straw))
    (rBlockString2 : Int → Eval σ (List Straw)) : Eval σ (List Straw) := do
  let bs1LOS ← rBlockString1
  bs1LOS.foldlM (fun resultLOS bs1Straw => do
    modify (env.setORUStraw node bs1Straw)
    let bs2LOS ← rBlockString2 (bs1Straw.last + 1)
    pure (resultLOS ++ prependToAll bs1Straw bs2LOS)) []

/-- `R_block_string2_power_block`; `getSMI` and `rBlockString2` are those of what comes after
the power block. -/
def rBlockString2PowerBlock (U Su : SetOfMonads) (maxRange : Int) (node : Nat) (power : Power)
    (rBlockString1 : Eval σ (List Straw)) (getSMI : Int → Eval σ (List Int))
    (rBlockString2 : Int → Eval σ (List Straw)) : Eval σ (List Straw) := do
  let bs1LOS ← rBlockString1
  let limitHigh := min power.limitHigh maxRange
  let limitLow := min power.limitLow limitHigh
  bs1LOS.foldlM (fun resultLOS bs1Straw => do
    modify (env.setORUStraw node bs1Straw)
    let strawlastPlus1 := bs1Straw.last + 1
    let strawlastPlus1PlusLimitLow := strawlastPlus1 + limitLow
    let Uping := rRestrict U strawlastPlus1PlusLimitLow
    let Suping := rRestrict Su strawlastPlus1PlusLimitLow
    if !Uping.isEmpty && !Suping.isEmpty then do
      let upperLimit :=
        if limitHigh = maxMonad then Suping.last else min (strawlastPlus1 + limitHigh) Suping.last
      let smi ← getSMI strawlastPlus1PlusLimitLow
      (smi.takeWhile fun Smping => Smping ≤ upperLimit).foldlM (fun resultLOS Smping => do
        let bs2LOS ← rBlockString2 Smping
        pure (resultLOS ++ prependToAll bs1Straw bs2LOS)) resultLOS
    else pure resultLOS) []

/-- One round of the Kleene star: `pLOS4` and `bContinue`. -/
def starRound (rBlockString0 : Int → Eval σ (List Straw)) (los : List Straw) :
    Eval σ (List Straw × Bool) :=
  los.foldlM (fun (v : List Straw × Bool) straw => do
    let los3 ← rBlockString0 (straw.last + 1)
    if los3.isEmpty then pure v else pure (v.1 ++ ListOfStraws.join los3 straw, true)) ([], false)

/-- The loop of the Kleene star, from `count` on. -/
def starLoop (starSOM : SetOfMonads) (rBlockString0 : Int → Eval σ (List Straw)) :
    Nat → Int → List Straw → List MonadSetElement → List Straw → Eval σ (List Straw)
  | 0, _, _, _, _ => failure
  | fuel + 1, count, los, somIt, resultLOS => do
    let (los4, bContinue) ← starRound rBlockString0 los
    if bContinue then do
      let (bMember, somIt) ← ofOption (starSOM.isMemberOfHint count somIt)
      let resultLOS := if bMember then ListOfStraws.appendACopy resultLOS los4 else resultLOS
      if somIt.isEmpty then pure resultLOS
      else starLoop starSOM rBlockString0 fuel (count + 1) los4 somIt resultLOS
    else pure resultLOS

/-- The loop goes past the end of the star's set at the latest in round `last + 1`, so more fuel
than that makes no difference. -/
theorem starLoop_fuel (starSOM : SetOfMonads) (rBlockString0 : Int → Eval σ (List Straw)) :
    ∀ (fuel : Nat) (count : Int) (los : List Straw) (somIt : List MonadSetElement)
      (resultLOS : List Straw), starSOM.last < count + fuel →
      starLoop starSOM rBlockString0 (fuel + 2) count los somIt resultLOS
        = starLoop starSOM rBlockString0 (fuel + 1) count los somIt resultLOS := by
  intro fuel
  induction fuel with
  | zero =>
    intro count los somIt resultLOS hlast
    have hend : starSOM.isMemberOfHint count somIt = some (false, []) := by
      unfold SetOfMonads.isMemberOfHint
      exact if_pos (by simpa using hlast)
    rw [starLoop, starLoop, hend]
    rfl
  | succ fuel ih =>
    intro count los somIt resultLOS hlast
    rw [starLoop, starLoop]
    refine bind_congr fun v => ?_
    have hlast' : starSOM.last < count + 1 + fuel := by
      rw [Int.natCast_succ] at hlast
      omega
    obtain ⟨los4, bContinue⟩ := v
    dsimp only
    congr 1
    refine bind_congr fun r => ?_
    obtain ⟨bMember, somIt'⟩ := r
    dsimp only
    rw [ih (count + 1) los4 somIt' _ hlast']

/-- `R_block_string1` on a starred block string; the fuel is enough by `starLoop_fuel`. -/
def rStar (starSOM : SetOfMonads) (Sm : Int) (rBlockString0 : Int → Eval σ (List Straw)) :
    Eval σ (List Straw) := do
  let los ← rBlockString0 Sm
  let emptyStraw := Straw.new.append (MatchedObject.ofEmpty (Sm - 1))
  if los.isEmpty then
    if starSOM.isMemberOf 0 then pure [emptyStraw] else pure []
  else do
    let (bZero, somIt) ← ofOption (starSOM.isMemberOfHint 0 starSOM.monadMs)
    let resultLOS := if bZero then [emptyStraw] else []
    let (bOne, somIt) ← ofOption (starSOM.isMemberOfHint 1 somIt)
    let resultLOS := if bOne then ListOfStraws.appendACopy resultLOS los else resultLOS
    if starSOM.last ≥ 2 then
      starLoop starSOM rBlockString0 starSOM.last.toNat 2 los somIt resultLOS
    else pure resultLOS

/-- The loop of an unordered group over the start monads of one object block. -/
def objectBlockLOS (bContinueExecution : Bool) (getSMI : Eval σ (List Int))
    (rObjectBlock : Int → Eval σ (List Straw)) : Eval σ (List Straw) := do
  let smi ← getSMI
  if bContinueExecution then
    smi.foldlM (fun obLOS Sm => do
      let localLOS ← rObjectBlock Sm
      pure (obLOS ++ localLOS)) []
  else pure []

/-! ## 4. The recursion

It is written over what `R_blocks` does with the lists of an unordered group, so that an
evaluation can be watched there; the code's own is `rBlocksOfUnorderedGroup`. -/

/-- Is the pointer to the inner blocks null? -/
def OptBlocks.isNull : OptBlocks C → Bool
  | null => true
  | blocks _ => false

namespace Evaluator

variable (rGroup : ObjectBlockString C → Option (MQLResultCallback σ) → Bool →
  List (List Straw) → Eval σ Sheaf)

mutual

/-- `R_object_block`. -/
def rObjectBlock : ObjectBlock C → SetOfMonads → SetOfMonads → Int → Eval σ (List Straw)
  | .mk info optBlocks, U, Su, Sm =>
    rObjectBlockInst env U Su Sm info optBlocks.isNull fun U Su =>
      rOptBlocks optBlocks U Su maxMonad

/-- `R_gap_block` and `R_opt_gap_block`. -/
def rGapBlock : GapBlock C → SetOfMonads → Int → Bool → Eval σ (Option MatchedObject)
  | .mk retrieval obb optBlocks, Su, Sm, emptyMo =>
    rGap Su Sm retrieval obb optBlocks.isNull
      (fun U Su => rOptBlocks optBlocks U Su maxMonad) emptyMo

/-- `R_opt_blocks`. -/
def rOptBlocks : OptBlocks C → SetOfMonads → SetOfMonads → Int → Eval σ (Option Sheaf)
  | .null, _, _, _ => pure none
  | .blocks blocks, U, Su, maxRange => do
    let sheaf ← rBlocks blocks U Su maxRange none true
    pure (some sheaf)

/-- `R_block`. -/
def rBlock : Block C → SetOfMonads → SetOfMonads → Int → Eval σ (List Straw)
  | .gapBlock gapBlock, _, Su, Sm => do
    let pMO ← rGapBlock gapBlock Su Sm false
    pure (losOfGap pMO)
  | .optGapBlock gapBlock, _, Su, Sm => do
    let pMO ← rGapBlock gapBlock Su Sm true
    pure (losOfGap pMO)
  | .powerBlock _, _, _, _ => failure
  | .objectBlock objectBlock, U, Su, Sm => rObjectBlock objectBlock U Su Sm
  | .objectBlockNOTEXIST (.mk info optBlocks), U, Su, Sm =>
    rNOTEXIST U Su Sm info.isAfterNonNOTEXISTInBlockString
      (fun U Su Sm => env.getSMIObjectBlock (.mk info optBlocks) U Su Sm false)
      (fun U Su Sm => rObjectBlockInst env U Su Sm info optBlocks.isNull fun U Su =>
        rOptBlocks optBlocks U Su maxMonad)

/-- `R_block_string0`. -/
def rBlockString0 : BlockString0 C → SetOfMonads → SetOfMonads → Int → Int →
    Eval σ (List Straw)
  | .block block, U, Su, Sm, _ => rBlock block U Su Sm
  | .blockString blockString, U, Su, Sm, maxRange => rBlockString blockString U Su Sm maxRange

/-- `R_block_string1`. -/
def rBlockString1 : BlockString1 C → SetOfMonads → SetOfMonads → Int → Int →
    Eval σ (List Straw)
  | .nonStar blockString0, U, Su, Sm, maxRange => rBlockString0 blockString0 U Su Sm maxRange
  | .star blockString0 starSOM, U, Su, Sm, maxRange =>
    rStar starSOM Sm fun Sm => rBlockString0 blockString0 U Su Sm maxRange

/-- `R_block_string2`.  A power block at the end is reached only to fail an assertion. -/
def rBlockString2 : BlockString2 C → SetOfMonads → SetOfMonads → Int → Int →
    Eval σ (List Straw)
  | .blockString1 _ blockString1, U, Su, Sm, maxRange =>
    rBlockString1 blockString1 U Su Sm maxRange
  | .sequence node blockString1 (.blockString1 node' next), U, Su, Sm, maxRange =>
    match next.getPowerBlock with
    | some power =>
      rBlockString2PowerBlock env U Su maxRange node power
        (rBlockString1 blockString1 U Su Sm maxRange) (fun _ => failure) (fun _ => failure)
    | none =>
      rBlockString2NonPowerBlock env node (rBlockString1 blockString1 U Su Sm maxRange)
        fun Sm => rBlockString2 (.blockString1 node' next) U Su Sm maxRange
  | .sequence node blockString1 (.sequence node' next nextButOne), U, Su, Sm, maxRange =>
    match next.getPowerBlock with
    | some power =>
      rBlockString2PowerBlock env U Su maxRange node power
        (rBlockString1 blockString1 U Su Sm maxRange)
        (fun Sm => env.getSMIBlockString1 nextButOne.getBlockString1 U Su Sm)
        fun Sm => rBlockString2 nextButOne U Su Sm maxRange
    | none =>
      rBlockString2NonPowerBlock env node (rBlockString1 blockString1 U Su Sm maxRange)
        fun Sm => rBlockString2 (.sequence node' next nextButOne) U Su Sm maxRange

/-- `R_block_string`. -/
def rBlockString : BlockString C → SetOfMonads → SetOfMonads → Int → Int → Eval σ (List Straw)
  | .blockString2 blockString2, U, Su, Sm, maxRange => rBlockString2 blockString2 U Su Sm maxRange
  | .or blockString2 blockString, U, Su, Sm, maxRange => do
    let blockString2LOS ← rBlockString2 blockString2 U Su Sm maxRange
    let blockStringLOS ← rBlockString blockString U Su Sm maxRange
    if blockString2LOS.isEmpty then pure blockStringLOS
    else if blockStringLOS.isEmpty then pure blockString2LOS
    else pure (blockString2LOS ++ blockStringLOS)

/-- The loop of an unordered group over its object blocks, from the last one to the first; the
lists in textual order. -/
def rObjectBlockString : ObjectBlockString C → SetOfMonads → SetOfMonads → Bool →
    Eval σ (List (List Straw))
  | .objectBlock objectBlock, U, Su, bContinueExecution => do
    let obLOS ← objectBlockLOS bContinueExecution
      (env.getSMIObjectBlock objectBlock U Su Su.first true)
      fun Sm => rObjectBlock objectBlock U Su Sm
    pure [obLOS]
  | .append objectBlockString objectBlock, U, Su, bContinueExecution => do
    let obLOS ← objectBlockLOS bContinueExecution
      (env.getSMIObjectBlock objectBlock U Su Su.first true)
      fun Sm => rObjectBlock objectBlock U Su Sm
    let losList ← rObjectBlockString objectBlockString U Su bContinueExecution
    pure (losList ++ [obLOS])

/-- `R_blocks`.  `pCallback` is `none` unless this is the topograph and there is a callback;
below the topograph `m_bContinueExecution` is true, since only the topograph changes it and
only while it is true are blocks evaluated. -/
def rBlocks : Blocks C → SetOfMonads → SetOfMonads → Int → Option (MQLResultCallback σ) →
    Bool → Eval σ Sheaf
  | .blockString usingRange blockString, U, Su, maxRange, pCallback, bContinueExecution =>
    rBlocksOfBlockString pCallback bContinueExecution usingRange
      (env.getSMIBlockString blockString U Su Su.first)
      fun Sm => rBlockString blockString U Su Sm maxRange
  | .unorderedGroup objectBlockString, U, Su, _, pCallback, bContinueExecution => do
    let losList ← rObjectBlockString objectBlockString U Su bContinueExecution
    rGroup objectBlockString pCallback bContinueExecution losList

end

end Evaluator

/-- `R_block_string`, as the code has it. -/
def rBlockString : BlockString C → SetOfMonads → SetOfMonads → Int → Int → Eval σ (List Straw) :=
  Evaluator.rBlockString env fun _ => rBlocksOfUnorderedGroup

/-- The lists of an unordered group, as the code has them. -/
def rObjectBlockString : ObjectBlockString C → SetOfMonads → SetOfMonads → Bool →
    Eval σ (List (List Straw)) :=
  Evaluator.rObjectBlockString env fun _ => rBlocksOfUnorderedGroup

/-- `R_blocks`, as the code has it. -/
def rBlocks : Blocks C → SetOfMonads → SetOfMonads → Int → Option (MQLResultCallback σ) →
    Bool → Eval σ Sheaf :=
  Evaluator.rBlocks env fun _ => rBlocksOfUnorderedGroup

end Evaluator

end Emdros
