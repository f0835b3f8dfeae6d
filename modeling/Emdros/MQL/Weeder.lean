/-
# Weeding a block string (`BlockString::weed`, `BlockString2::type`)

The weeder refuses the block strings in which a power block (`..`) is the first or the last in its
context or next to another one, by five functions that call one another.  The evaluator looks at the
next block, and fails an assertion where there is a power block that it has not seen coming.  In
between, the type pass puts blocks of gaps that need not be there between the blocks.

`Guarded` is what the evaluator relies on, for each sequence of blocks of a query.

* `BlockString2.guarded_type`: the weeder gives it, and the type pass keeps it.  The weeder carries
  along whether the block before was a power block; `Guarded` has the same flag.
* `Blocks.every_type`: it holds of each sequence of the query, however deep, since a context begins
  anew in every block.
* `PowersFlanked`: what it means for the list of blocks, with no flag.
* `rBlocks_eq`: on such a query the evaluator does the same whatever a failing assertion does, so no
  assertion fails.  `onAssert` stands for that; with a failure in its place the evaluator is the one
  of `Retrieval`.
-/
import Mathlib.Logic.Relation
import Mathlib.Data.List.Basic
import Emdros.EMdF.Tables
import Emdros.MQL.Literals
import Emdros.MQL.Retrieval
import Emdros.MQL.StartMonads

namespace Emdros

open Partial

/-! ## 1. Weeding -/

/-- What the passes ask about a query that the evaluator's tree does not hold. -/
structure WeedEnv (C : Type) where
  /-- `m_bIsExclamation` of a `BlockString2`. -/
  isExclamation : Nat → Bool
  hasObjectReference : ObjectBlockInfo C → Bool
  objectRangeType : ObjectBlockInfo C → ObjectRangeType
  weedFeatureConstraints : ObjectBlockInfo C → Bool
  weedStarMonadSet : SetOfMonads → Bool
  /-- The base of an inserted `opt_gap_block`. -/
  optGapBase : ObjectBlockBase

section Kinds

variable {C : Type}

/-- `isGapOrOptGapBlock`. -/
def Block.isGapOrOptGapBlock : Block C → Bool
  | gapBlock _ => true
  | optGapBlock _ => true
  | _ => false

def Block.isPowerBlock : Block C → Bool
  | powerBlock _ => true
  | _ => false

/-- The block string is a block, and a gap block or an `opt_gap_block`. -/
def BlockString1.isGap (b : BlockString1 C) : Bool :=
  match b.getBlockString0 with
  | .block block => block.isGapOrOptGapBlock
  | .blockString _ => false

/-- The block string is a block, and a power block. -/
def BlockString1.isPower (b : BlockString1 C) : Bool :=
  match b.getBlockString0 with
  | .block block => block.isPowerBlock
  | .blockString _ => false

mutual

def BlockString0.firstBlockIsPower : BlockString0 C → Bool
  | .block block => block.isPowerBlock
  | .blockString blockString => blockString.firstBlockIsPower

def BlockString1.firstBlockIsPower : BlockString1 C → Bool
  | .nonStar blockString0 => blockString0.firstBlockIsPower
  | .star blockString0 _ => blockString0.firstBlockIsPower

def BlockString2.firstBlockIsPower : BlockString2 C → Bool
  | .blockString1 _ blockString1 => blockString1.firstBlockIsPower
  | .sequence _ blockString1 _ => blockString1.firstBlockIsPower

def BlockString.firstBlockIsPower : BlockString C → Bool
  | .blockString2 blockString2 => blockString2.firstBlockIsPower
  | .or blockString2 blockString => blockString2.firstBlockIsPower || blockString.firstBlockIsPower

end

end Kinds

section Weed

variable {C : Type} (w : WeedEnv C)

/-- The switch on `FIRST` and `LAST`. -/
def EFirstLast.weed (is_first is_last : Bool) : EFirstLast → Bool
  | kFirst => is_first
  | kLast => is_last
  | kFirstAndLast => is_first && is_last
  | kNoFirstLast => true

/-- What `BlockString1::weed` asks of a block with a star. -/
def BlockString0.mayHaveStar : BlockString0 C → Bool
  | .block (.objectBlockNOTEXIST _) => false
  | .block (.objectBlock (.mk info _)) => !w.hasObjectReference info
  | _ => true

mutual

/-- `ObjectBlock::weed`: what it finds in the features that are retrieved is forgotten at the switch
on `FIRST` and `LAST`. -/
def ObjectBlock.weed (is_first is_last : Bool) : ObjectBlock C → Bool
  | .mk info optBlocks =>
    info.firstLast.weed is_first is_last && w.weedFeatureConstraints info && optBlocks.weed

def GapBlock.weed : GapBlock C → Bool
  | .mk _ _ optBlocks => optBlocks.weed

def OptBlocks.weed : OptBlocks C → Bool
  | .null => true
  | .blocks blocks => blocks.weed

def Block.weed (is_first is_last : Bool) : Block C → Bool
  | .gapBlock gapBlock => gapBlock.weed
  | .optGapBlock gapBlock => gapBlock.weed
  | .powerBlock power => power.weed && (!is_first && !is_last)
  | .objectBlock objectBlock => objectBlock.weed is_first is_last
  | .objectBlockNOTEXIST objectBlock => objectBlock.weed is_first is_last

def BlockString0.weed (is_first is_last bPrevIsGap bPrevIsPower : Bool) : BlockString0 C → Bool
  | .block block =>
    if bPrevIsGap && block.isGapOrOptGapBlock then false
    else if bPrevIsPower && block.isPowerBlock then false
    else block.weed is_first is_last
  | .blockString blockString => blockString.weed is_first is_last false false

def BlockString1.weed (is_first is_last bPrevIsGap bPrevIsPower : Bool) : BlockString1 C → Bool
  | .nonStar blockString0 => blockString0.weed is_first is_last bPrevIsGap bPrevIsPower
  | .star blockString0 starSOM =>
    blockString0.weed is_first is_last bPrevIsGap bPrevIsPower && w.weedStarMonadSet starSOM &&
      blockString0.mayHaveStar w

def BlockString2.weed (is_first is_last bPrevIsGap bPrevIsPower : Bool) : BlockString2 C → Bool
  | .blockString1 _ blockString1 =>
    blockString1.weed is_first is_last bPrevIsGap bPrevIsPower && !blockString1.isPower
  | .sequence _ blockString1 blockString2 =>
    if bPrevIsGap && blockString1.isGap then false
    else if bPrevIsPower && blockString1.isPower then false
    else
      blockString1.weed is_first false bPrevIsGap bPrevIsPower &&
        blockString2.weed false is_last blockString1.isGap blockString1.isPower

def BlockString.weed (is_first is_last bPrevIsGap bPrevIsPower : Bool) : BlockString C → Bool
  | .blockString2 blockString2 =>
    !blockString2.firstBlockIsPower &&
      blockString2.weed is_first is_last bPrevIsGap bPrevIsPower
  | .or blockString2 blockString =>
    !blockString2.firstBlockIsPower &&
      (blockString2.weed true true false false && blockString.weed true true false false)

def ObjectBlockString.weed : ObjectBlockString C → Bool
  | .objectBlock objectBlock => objectBlock.weed false false
  | .append objectBlockString objectBlock =>
    objectBlockString.weed && objectBlock.weed false false

def Blocks.weed : Blocks C → Bool
  | .blockString usingRange blockString =>
    blockString.weed true true false false && usingRange.all UsingRange.weed
  | .unorderedGroup objectBlockString => objectBlockString.weed

end

end Weed

/-! ## 2. Inserting gaps -/

section InsertGaps

variable {C : Type} (w : WeedEnv C)

/-- `new BlockString1(new BlockString0(new Block(new OptGapBlock(kNoRetrieve, "", 0))))`. -/
def WeedEnv.insertedOptGap : BlockString1 C :=
  .nonStar (.block (.optGapBlock (.mk .kNoRetrieve w.optGapBase .null)))

/-- The conditions for an `opt_gap_block` after the first block of a sequence. -/
def WeedEnv.insertsOptGap (contextRangeType : ObjectRangeType) (node : Nat)
    (blockString1 next : BlockString1 C) : Bool :=
  !w.isExclamation node && contextRangeType == .multipleRange &&
    !(blockString1.isGap || blockString1.isPower) && !(next.isGap || next.isPower)

mutual

/-- `type`, as far as it changes the query; its checks are not about the order of blocks. -/
def ObjectBlock.type : ObjectBlock C → ObjectBlock C
  | .mk info optBlocks => .mk info (optBlocks.type (w.objectRangeType info))

def GapBlock.type : GapBlock C → GapBlock C
  | .mk retrieval obb optBlocks => .mk retrieval obb (optBlocks.type .singleRange)

def OptBlocks.type (contextRangeType : ObjectRangeType) : OptBlocks C → OptBlocks C
  | .null => .null
  | .blocks blocks => .blocks (blocks.type contextRangeType)

def Block.type : Block C → Block C
  | .gapBlock gapBlock => .gapBlock gapBlock.type
  | .optGapBlock gapBlock => .optGapBlock gapBlock.type
  | .powerBlock power => .powerBlock power
  | .objectBlock objectBlock => .objectBlock objectBlock.type
  | .objectBlockNOTEXIST objectBlock => .objectBlockNOTEXIST objectBlock.type

def BlockString0.type (contextRangeType : ObjectRangeType) : BlockString0 C → BlockString0 C
  | .block block => .block block.type
  | .blockString blockString => .blockString (blockString.type contextRangeType)

def BlockString1.type (contextRangeType : ObjectRangeType) : BlockString1 C → BlockString1 C
  | .nonStar blockString0 => .nonStar (blockString0.type contextRangeType)
  | .star blockString0 starSOM => .star (blockString0.type contextRangeType) starSOM

/-- The node number of an inserted `BlockString2` is the one that it is made with. -/
def BlockString2.type (contextRangeType : ObjectRangeType) : BlockString2 C → BlockString2 C
  | .blockString1 node blockString1 => .blockString1 node (blockString1.type contextRangeType)
  | .sequence node blockString1 blockString2 =>
    let first := blockString1.type contextRangeType
    let rest := blockString2.type contextRangeType
    if w.insertsOptGap contextRangeType node first rest.getBlockString1 then
      .sequence node first (.sequence 0 w.insertedOptGap rest)
    else .sequence node first rest

def BlockString.type (contextRangeType : ObjectRangeType) : BlockString C → BlockString C
  | .blockString2 blockString2 => .blockString2 (blockString2.type contextRangeType)
  | .or blockString2 blockString =>
    .or (blockString2.type contextRangeType) (blockString.type contextRangeType)

def ObjectBlockString.type : ObjectBlockString C → ObjectBlockString C
  | .objectBlock objectBlock => .objectBlock objectBlock.type
  | .append objectBlockString objectBlock => .append objectBlockString.type objectBlock.type

def Blocks.type (contextRangeType : ObjectRangeType) : Blocks C → Blocks C
  | .blockString usingRange blockString => .blockString usingRange (blockString.type contextRangeType)
  | .unorderedGroup objectBlockString => .unorderedGroup objectBlockString.type

end

end InsertGaps

/-! ## 3. The sequences of a query -/

section Sequences

variable {C : Type}

mutual

/-- Every sequence of blocks in the query, at any depth, has the property `P`. -/
def ObjectBlock.Every (P : BlockString2 C → Prop) : ObjectBlock C → Prop
  | .mk _ optBlocks => optBlocks.Every P

def GapBlock.Every (P : BlockString2 C → Prop) : GapBlock C → Prop
  | .mk _ _ optBlocks => optBlocks.Every P

def OptBlocks.Every (P : BlockString2 C → Prop) : OptBlocks C → Prop
  | .null => True
  | .blocks blocks => blocks.Every P

def Block.Every (P : BlockString2 C → Prop) : Block C → Prop
  | .gapBlock gapBlock => gapBlock.Every P
  | .optGapBlock gapBlock => gapBlock.Every P
  | .powerBlock _ => True
  | .objectBlock objectBlock => objectBlock.Every P
  | .objectBlockNOTEXIST objectBlock => objectBlock.Every P

def BlockString0.Every (P : BlockString2 C → Prop) : BlockString0 C → Prop
  | .block block => block.Every P
  | .blockString blockString => blockString.Every P

def BlockString1.Every (P : BlockString2 C → Prop) : BlockString1 C → Prop
  | .nonStar blockString0 => blockString0.Every P
  | .star blockString0 _ => blockString0.Every P

/-- Those inside the blocks of a sequence. -/
def BlockString2.Inner (P : BlockString2 C → Prop) : BlockString2 C → Prop
  | .blockString1 _ blockString1 => blockString1.Every P
  | .sequence _ blockString1 blockString2 => blockString1.Every P ∧ blockString2.Inner P

def BlockString.Every (P : BlockString2 C → Prop) : BlockString C → Prop
  | .blockString2 blockString2 => P blockString2 ∧ blockString2.Inner P
  | .or blockString2 blockString =>
    (P blockString2 ∧ blockString2.Inner P) ∧ blockString.Every P

def ObjectBlockString.Every (P : BlockString2 C → Prop) : ObjectBlockString C → Prop
  | .objectBlock objectBlock => objectBlock.Every P
  | .append objectBlockString objectBlock => objectBlockString.Every P ∧ objectBlock.Every P

def Blocks.Every (P : BlockString2 C → Prop) : Blocks C → Prop
  | .blockString _ blockString => blockString.Every P
  | .unorderedGroup objectBlockString => objectBlockString.Every P

end

/-- The blocks of a sequence. -/
def BlockString2.blocks : BlockString2 C → List (BlockString1 C)
  | .blockString1 _ b => [b]
  | .sequence _ b rest => b :: rest.blocks

/-- No power block is the last, next to another one, or behind the one before the sequence. -/
def BlockString2.Guarded : Bool → BlockString2 C → Prop
  | _, .blockString1 _ b => b.isPower = false
  | afterPower, .sequence _ b rest =>
    (afterPower = true → b.isPower = false) ∧ rest.Guarded b.isPower

/-- The blocks next to a power block are there, and are no power blocks. -/
def PowersFlanked (blocks : List (BlockString1 C)) : Prop :=
  ∀ before power after, blocks = before ++ power :: after → power.isPower = true →
    (∃ front previous, before = front ++ [previous] ∧ previous.isPower = false) ∧
      ∃ next back, after = next :: back ∧ next.isPower = false

variable (w : WeedEnv C)

/-- The blocks of a sequence after `type`, each with whether it was inserted. -/
def BlockString2.typedBlocks (contextRangeType : ObjectRangeType) :
    BlockString2 C → List (Bool × BlockString1 C)
  | .blockString1 _ b => [(false, b.type w contextRangeType)]
  | .sequence node b rest =>
    let first := b.type w contextRangeType
    if w.insertsOptGap contextRangeType node first
        (rest.type w contextRangeType).getBlockString1 then
      (false, first) :: (true, w.insertedOptGap) :: rest.typedBlocks contextRangeType
    else (false, first) :: rest.typedBlocks contextRangeType

/-- An inserted block is not next to a gap block, an `opt_gap_block` or a power block. -/
def InsertedApart (blocks : List (Bool × BlockString1 C)) : Prop :=
  blocks.IsChain fun b next =>
    (b.1 = true → next.2.isGap = false ∧ next.2.isPower = false) ∧
      (next.1 = true → b.2.isGap = false ∧ b.2.isPower = false)

end Sequences

/-! ## 4. The assertions of the evaluator -/

/-- The assertions about power blocks. -/
inductive PowerAssertion where
  | nextIsPowerBlockOfSequence
  | getPowerBlockOfSequence
  | getPowerBlockIsPower
  | getPowerBlockIsBlock
  | powerBlockNotAtEnd
  | getSMINotPower
  | rBlockNotPower

/-- What is done in place of an assertion that does not hold. -/
abbrev OnAssert (σ : Type) := PowerAssertion → (α : Type) → Eval σ α

section Asserting

variable {C S σ : Type} (onAssert : OnAssert σ)

/-- `nextIsPowerBlock`. -/
def BlockString2.nextIsPowerBlock : BlockString2 C → Eval σ Bool
  | .blockString1 _ _ => onAssert .nextIsPowerBlockOfSequence Bool
  | .sequence _ _ blockString2 => pure blockString2.getBlockString1.isPower

/-- `getPowerBlock`. -/
def BlockString2.getPowerBlock : BlockString2 C → Eval σ Power
  | .blockString1 _ _ => onAssert .getPowerBlockOfSequence Power
  | .sequence _ _ blockString2 =>
    match blockString2.getBlockString1.getBlockString0 with
    | .block (.powerBlock power) => pure power
    | .block _ => onAssert .getPowerBlockIsPower Power
    | .blockString _ => onAssert .getPowerBlockIsBlock Power

namespace Asserting

variable (e : StartMonadEnv)

/-- `Block::getSMI`. -/
def getSMIBlock : Block C → SetOfMonads → SetOfMonads → Int → Bool → Eval σ StartMonadIterator
  | .powerBlock _, _, _, _, _ => onAssert .getSMINotPower StartMonadIterator
  | block, U, Su, Sm, bCameFromBlockString =>
    ofOption (block.getSMI e U Su Sm bCameFromBlockString)

mutual

def getSMI0 : BlockString0 C → SetOfMonads → SetOfMonads → Int → Eval σ StartMonadIterator
  | .block block, U, Su, Sm => getSMIBlock onAssert e block U Su Sm true
  | .blockString blockString, U, Su, Sm => getSMI blockString U Su Sm

def getSMI1 : BlockString1 C → SetOfMonads → SetOfMonads → Int → Eval σ StartMonadIterator
  | .nonStar blockString0, U, Su, Sm => getSMI0 blockString0 U Su Sm
  | .star blockString0 starSOM, U, Su, Sm =>
    if starSOM.isMemberOf 0 then ofOption (monadSetStartMonadIterator Su Sm false)
    else getSMI0 blockString0 U Su Sm

def getSMI2 : BlockString2 C → SetOfMonads → SetOfMonads → Int → Eval σ StartMonadIterator
  | .blockString1 _ blockString1, U, Su, Sm => getSMI1 blockString1 U Su Sm
  | .sequence _ blockString1 _, U, Su, Sm => getSMI1 blockString1 U Su Sm

def getSMI : BlockString C → SetOfMonads → SetOfMonads → Int → Eval σ StartMonadIterator
  | .blockString2 blockString2, U, Su, Sm => getSMI2 blockString2 U Su Sm
  | .or blockString2 blockString, U, Su, Sm => do
    let bs2SMI ← getSMI2 blockString2 U Su Sm
    let bsSMI ← getSMI blockString U Su Sm
    ofOption (orStartMonadIterator bs2SMI bsSMI Sm)

end

variable (env : QueryEnv C S σ)
  (rGroup : ObjectBlockString C → Option (MQLResultCallback σ) → Bool →
    List (List Straw) → Eval σ Sheaf)

/-- `R_block_string2_power_block`, which asks for the power block once there are straws. -/
def rPowerBlock (U Su : SetOfMonads) (maxRange : Int) (node : Nat) (getPowerBlock : Eval σ Power)
    (rBlockString1 : Eval σ (List Straw)) (getSMI : Int → Eval σ (List Int))
    (rBlockString2 : Int → Eval σ (List Straw)) : Eval σ (List Straw) := do
  let bs1LOS ← rBlockString1
  if bs1LOS.isEmpty then pure []
  else do
    let power ← getPowerBlock
    rBlockString2PowerBlock env U Su maxRange node power (pure bs1LOS) getSMI rBlockString2

mutual

def rObjectBlock : ObjectBlock C → SetOfMonads → SetOfMonads → Int → Eval σ (List Straw)
  | .mk info optBlocks, U, Su, Sm =>
    rObjectBlockInst env U Su Sm info optBlocks.isNull fun U Su =>
      rOptBlocks optBlocks U Su maxMonad

def rGapBlock : GapBlock C → SetOfMonads → Int → Bool → Eval σ (Option MatchedObject)
  | .mk retrieval obb optBlocks, Su, Sm, emptyMo =>
    rGap Su Sm retrieval obb optBlocks.isNull
      (fun U Su => rOptBlocks optBlocks U Su maxMonad) emptyMo

def rOptBlocks : OptBlocks C → SetOfMonads → SetOfMonads → Int → Eval σ (Option Sheaf)
  | .null, _, _, _ => pure none
  | .blocks blocks, U, Su, maxRange => do
    let sheaf ← rBlocks blocks U Su maxRange none true
    pure (some sheaf)

def rBlock : Block C → SetOfMonads → SetOfMonads → Int → Eval σ (List Straw)
  | .gapBlock gapBlock, _, Su, Sm => do
    let pMO ← rGapBlock gapBlock Su Sm false
    pure (losOfGap pMO)
  | .optGapBlock gapBlock, _, Su, Sm => do
    let pMO ← rGapBlock gapBlock Su Sm true
    pure (losOfGap pMO)
  | .powerBlock _, _, _, _ => onAssert .rBlockNotPower (List Straw)
  | .objectBlock objectBlock, U, Su, Sm => rObjectBlock objectBlock U Su Sm
  | .objectBlockNOTEXIST (.mk info optBlocks), U, Su, Sm =>
    rNOTEXIST U Su Sm info.isAfterNonNOTEXISTInBlockString
      (fun U Su Sm => env.getSMIObjectBlock (.mk info optBlocks) U Su Sm false)
      (fun U Su Sm => rObjectBlockInst env U Su Sm info optBlocks.isNull fun U Su =>
        rOptBlocks optBlocks U Su maxMonad)

def rBlockString0 : BlockString0 C → SetOfMonads → SetOfMonads → Int → Int →
    Eval σ (List Straw)
  | .block block, U, Su, Sm, _ => rBlock block U Su Sm
  | .blockString blockString, U, Su, Sm, maxRange => rBlockString blockString U Su Sm maxRange

def rBlockString1 : BlockString1 C → SetOfMonads → SetOfMonads → Int → Int →
    Eval σ (List Straw)
  | .nonStar blockString0, U, Su, Sm, maxRange => rBlockString0 blockString0 U Su Sm maxRange
  | .star blockString0 starSOM, U, Su, Sm, maxRange =>
    rStar starSOM Sm fun Sm => rBlockString0 blockString0 U Su Sm maxRange

def rBlockString2 : BlockString2 C → SetOfMonads → SetOfMonads → Int → Int →
    Eval σ (List Straw)
  | .blockString1 _ blockString1, U, Su, Sm, maxRange =>
    rBlockString1 blockString1 U Su Sm maxRange
  | .sequence node blockString1 (.blockString1 node' next), U, Su, Sm, maxRange => do
    let this := BlockString2.sequence node blockString1 (.blockString1 node' next)
    let nextIsPower ← this.nextIsPowerBlock onAssert
    if nextIsPower then
      rPowerBlock env U Su maxRange node (this.getPowerBlock onAssert)
        (rBlockString1 blockString1 U Su Sm maxRange)
        (fun _ => onAssert .powerBlockNotAtEnd (List Int))
        (fun _ => onAssert .powerBlockNotAtEnd (List Straw))
    else
      rBlockString2NonPowerBlock env node (rBlockString1 blockString1 U Su Sm maxRange)
        fun Sm => rBlockString2 (.blockString1 node' next) U Su Sm maxRange
  | .sequence node blockString1 (.sequence node' next nextButOne), U, Su, Sm, maxRange => do
    let this := BlockString2.sequence node blockString1 (.sequence node' next nextButOne)
    let nextIsPower ← this.nextIsPowerBlock onAssert
    if nextIsPower then
      rPowerBlock env U Su maxRange node (this.getPowerBlock onAssert)
        (rBlockString1 blockString1 U Su Sm maxRange)
        (fun Sm => do
          let smi ← getSMI1 onAssert e nextButOne.getBlockString1 U Su Sm
          pure smi.monads)
        fun Sm => rBlockString2 nextButOne U Su Sm maxRange
    else
      rBlockString2NonPowerBlock env node (rBlockString1 blockString1 U Su Sm maxRange)
        fun Sm => rBlockString2 (.sequence node' next nextButOne) U Su Sm maxRange

def rBlockString : BlockString C → SetOfMonads → SetOfMonads → Int → Int → Eval σ (List Straw)
  | .blockString2 blockString2, U, Su, Sm, maxRange => rBlockString2 blockString2 U Su Sm maxRange
  | .or blockString2 blockString, U, Su, Sm, maxRange => do
    let blockString2LOS ← rBlockString2 blockString2 U Su Sm maxRange
    let blockStringLOS ← rBlockString blockString U Su Sm maxRange
    if blockString2LOS.isEmpty then pure blockStringLOS
    else if blockStringLOS.isEmpty then pure blockString2LOS
    else pure (blockString2LOS ++ blockStringLOS)

def rObjectBlockString : ObjectBlockString C → SetOfMonads → SetOfMonads → Bool →
    Eval σ (List (List Straw))
  | .objectBlock objectBlock, U, Su, bContinueExecution => do
    let obLOS ← objectBlockLOS bContinueExecution
      (env.getSMIObjectBlock objectBlock U Su Su.first true)
      fun Sm => rObjectBlock objectBlock U Su Sm
    pure [obLOS]
  | .append objectBlockString objectBlock, U, Su, bContinueExecution => do
    let obLOS ← objectBlockLOS bContinueExecution
      (env.getSMIObjectBlock objectBlock U Su Su.first true)
      fun Sm => rObjectBlock objectBlock U Su Sm
    let losList ← rObjectBlockString objectBlockString U Su bContinueExecution
    pure (losList ++ [obLOS])

def rBlocks : Blocks C → SetOfMonads → SetOfMonads → Int → Option (MQLResultCallback σ) →
    Bool → Eval σ Sheaf
  | .blockString usingRange blockString, U, Su, maxRange, pCallback, bContinueExecution =>
    rBlocksOfBlockString pCallback bContinueExecution usingRange
      (do
        let smi ← getSMI onAssert e blockString U Su Su.first
        pure smi.monads)
      fun Sm => rBlockString blockString U Su Sm maxRange
  | .unorderedGroup objectBlockString, U, Su, _, pCallback, bContinueExecution => do
    let losList ← rObjectBlockString objectBlockString U Su bContinueExecution
    rGroup objectBlockString pCallback bContinueExecution losList

end

end Asserting

end Asserting

/-! ## 5. What weeding and the type pass leave -/

section Admits

variable {C : Type} {w : WeedEnv C} {contextRangeType : ObjectRangeType}

@[simp] theorem BlockString1.isPower_type : ∀ b : BlockString1 C,
    (b.type w contextRangeType).isPower = b.isPower
  | .nonStar (.block block) => by cases block <;> rfl
  | .star (.block block) _ => by cases block <;> rfl
  | .nonStar (.blockString _) => rfl
  | .star (.blockString _) _ => rfl

@[simp] theorem BlockString1.isGap_type : ∀ b : BlockString1 C,
    (b.type w contextRangeType).isGap = b.isGap
  | .nonStar (.block block) => by cases block <;> rfl
  | .star (.block block) _ => by cases block <;> rfl
  | .nonStar (.blockString _) => rfl
  | .star (.blockString _) _ => rfl

@[simp] theorem WeedEnv.isPower_insertedOptGap : w.insertedOptGap.isPower = false := rfl

@[simp] theorem WeedEnv.every_insertedOptGap (P : BlockString2 C → Prop) :
    w.insertedOptGap.Every P := trivial

@[simp] theorem BlockString2.getBlockString1_type (b : BlockString2 C) :
    (b.type w contextRangeType).getBlockString1 = b.getBlockString1.type w contextRangeType := by
  cases b with
  | blockString1 node b => rfl
  | sequence node b rest =>
    rw [BlockString2.type]
    split <;> rfl

/-- An `opt_gap_block` comes only between two blocks of which neither is a gap or a power block. -/
theorem WeedEnv.insertsOptGap_eq {node : Nat} {b next : BlockString1 C}
    (h : w.insertsOptGap contextRangeType node b next = true) :
    (b.isGap = false ∧ b.isPower = false) ∧ next.isGap = false ∧ next.isPower = false := by
  simp only [insertsOptGap, Bool.and_eq_true, Bool.not_eq_true', Bool.or_eq_false_iff] at h
  exact ⟨h.1.2, h.2⟩

/-- The weeder asks whether the first block is a power block through all brackets; a first block
that is none of these is none at the head of the sequence either. -/
theorem BlockString2.not_isPower_of_first {b : BlockString2 C}
    (h : b.firstBlockIsPower = false) : b.getBlockString1.isPower = false := by
  have hfirst : ∀ b : BlockString1 C, b.firstBlockIsPower = false → b.isPower = false := by
    intro b hb
    rcases b with ⟨_ | _⟩ | ⟨_ | _, _⟩
    case nonStar.blockString => rfl
    case star.blockString => rfl
    all_goals exact hb
  cases b with
  | blockString1 node b => exact hfirst b h
  | sequence node b rest => exact hfirst b h

/-- A sequence that does not begin with a power block may stand behind one. -/
theorem BlockString2.Guarded.behind {afterPower : Bool} {b : BlockString2 C}
    (h : b.Guarded afterPower) (hb : b.getBlockString1.isPower = false) : b.Guarded true := by
  cases b with
  | blockString1 node b => exact hb
  | sequence node b rest => exact ⟨fun _ => hb, h.2⟩

/-- Behind a power block no sequence begins with one. -/
theorem BlockString2.Guarded.first {b : BlockString2 C} (h : b.Guarded true) :
    b.getBlockString1.isPower = false := by
  cases b with
  | blockString1 node b => exact h
  | sequence node b rest => exact h.1 rfl

/-- What the weeder accepts is guarded once the symbol pass has put in its `opt_gap_block`s: no two
power blocks follow each other, none is the last, and the first may be one only where the caller
allows it. The induction is along the sequence, with what stands before it. -/
theorem BlockString2.guarded_type : ∀ (b : BlockString2 C)
    {is_first is_last bPrevIsGap bPrevIsPower : Bool},
    b.weed w is_first is_last bPrevIsGap bPrevIsPower = true →
    (b.type w contextRangeType).Guarded bPrevIsPower
  | .blockString1 node b, is_first, is_last, bPrevIsGap, bPrevIsPower, h => by
    rw [BlockString2.weed, Bool.and_eq_true, Bool.not_eq_true'] at h
    simpa [BlockString2.type, Guarded] using h.2
  | .sequence node b rest, is_first, is_last, bPrevIsGap, bPrevIsPower, h => by
    rw [BlockString2.weed] at h
    split at h
    · cases h
    · split at h
      · cases h
      · rename_i hpower
        rw [Bool.and_eq_true] at h
        have hrest : (rest.type w contextRangeType).Guarded b.isPower := guarded_type rest h.2
        have hfirst : bPrevIsPower = true → b.isPower = false := by simpa using hpower
        rw [BlockString2.type]
        split
        · -- an `opt_gap_block` goes between two blocks that are no power blocks
          rename_i hinserts
          have hb := (WeedEnv.insertsOptGap_eq hinserts).1.2
          rw [BlockString1.isPower_type] at hb
          rw [hb] at hrest
          exact ⟨by simpa using hfirst, by simp, by simpa using hrest⟩
        · exact ⟨by simpa using hfirst, by simpa using hrest⟩

/-- What holds inside all blocks of a sequence holds inside those of the typed one, for a gap that
is put in has nothing inside. -/
theorem BlockString2.inner_sequence {P : BlockString2 C → Prop} {node : Nat}
    {b : BlockString1 C} {rest : BlockString2 C} (hb : (b.type w contextRangeType).Every P)
    (hrest : (rest.type w contextRangeType).Inner P) :
    ((BlockString2.sequence node b rest).type w contextRangeType).Inner P := by
  rw [BlockString2.type]
  split
  · exact ⟨hb, w.every_insertedOptGap P, hrest⟩
  · exact ⟨hb, hrest⟩

section Every

variable {P : BlockString2 C → Prop}

mutual

theorem ObjectBlock.every_type (hP : ∀ b : BlockString2 C, b.Guarded true → P b) :
    ∀ (o : ObjectBlock C) {is_first is_last : Bool}, o.weed w is_first is_last = true →
      (o.type w).Every P
  | .mk info optBlocks, is_first, is_last, h => by
    rw [ObjectBlock.weed, Bool.and_eq_true] at h
    exact optBlocks.every_type hP h.2

theorem GapBlock.every_type (hP : ∀ b : BlockString2 C, b.Guarded true → P b) :
    ∀ g : GapBlock C, g.weed w = true → (g.type w).Every P
  | .mk _ _ optBlocks, h => optBlocks.every_type hP (by rwa [GapBlock.weed] at h)

theorem OptBlocks.every_type (hP : ∀ b : BlockString2 C, b.Guarded true → P b)
    {contextRangeType : ObjectRangeType} :
    ∀ o : OptBlocks C, o.weed w = true → (o.type w contextRangeType).Every P
  | .null, _ => trivial
  | .blocks blocks, h => blocks.every_type hP (by rwa [OptBlocks.weed] at h)

theorem Block.every_type (hP : ∀ b : BlockString2 C, b.Guarded true → P b) :
    ∀ (b : Block C) {is_first is_last : Bool}, b.weed w is_first is_last = true →
      (b.type w).Every P
  | .gapBlock g, _, _, h => g.every_type hP (by rwa [Block.weed] at h)
  | .optGapBlock g, _, _, h => g.every_type hP (by rwa [Block.weed] at h)
  | .powerBlock _, _, _, _ => trivial
  | .objectBlock o, _, _, h => o.every_type hP (by rwa [Block.weed] at h)
  | .objectBlockNOTEXIST o, _, _, h => o.every_type hP (by rwa [Block.weed] at h)

theorem BlockString0.every_type (hP : ∀ b : BlockString2 C, b.Guarded true → P b)
    {contextRangeType : ObjectRangeType} :
    ∀ (b : BlockString0 C) {is_first is_last bPrevIsGap bPrevIsPower : Bool},
      b.weed w is_first is_last bPrevIsGap bPrevIsPower = true →
      (b.type w contextRangeType).Every P
  | .block block, is_first, is_last, bPrevIsGap, bPrevIsPower, h => by
    rw [BlockString0.weed] at h
    split at h
    · cases h
    · split at h
      · cases h
      · exact block.every_type hP h
  | .blockString blockString, is_first, is_last, bPrevIsGap, bPrevIsPower, h =>
    blockString.every_type hP (by rwa [BlockString0.weed] at h)

theorem BlockString1.every_type (hP : ∀ b : BlockString2 C, b.Guarded true → P b)
    {contextRangeType : ObjectRangeType} :
    ∀ (b : BlockString1 C) {is_first is_last bPrevIsGap bPrevIsPower : Bool},
      b.weed w is_first is_last bPrevIsGap bPrevIsPower = true →
      (b.type w contextRangeType).Every P
  | .nonStar b, _, _, _, _, h => b.every_type hP (by rwa [BlockString1.weed] at h)
  | .star b _, _, _, _, _, h => by
    rw [BlockString1.weed, Bool.and_eq_true, Bool.and_eq_true] at h
    exact b.every_type hP h.1.1

theorem BlockString2.inner_type (hP : ∀ b : BlockString2 C, b.Guarded true → P b)
    {contextRangeType : ObjectRangeType} :
    ∀ (b : BlockString2 C) {is_first is_last bPrevIsGap bPrevIsPower : Bool},
      b.weed w is_first is_last bPrevIsGap bPrevIsPower = true →
      (b.type w contextRangeType).Inner P
  | .blockString1 _ b, is_first, is_last, bPrevIsGap, bPrevIsPower, h => by
    rw [BlockString2.weed, Bool.and_eq_true] at h
    exact b.every_type hP h.1
  | .sequence _ b rest, is_first, is_last, bPrevIsGap, bPrevIsPower, h => by
    rw [BlockString2.weed] at h
    split at h
    · cases h
    · split at h
      · cases h
      · rw [Bool.and_eq_true] at h
        exact BlockString2.inner_sequence (b.every_type hP h.1) (rest.inner_type hP h.2)

theorem BlockString.every_type (hP : ∀ b : BlockString2 C, b.Guarded true → P b)
    {contextRangeType : ObjectRangeType} :
    ∀ (b : BlockString C) {is_first is_last bPrevIsGap bPrevIsPower : Bool},
      b.weed w is_first is_last bPrevIsGap bPrevIsPower = true →
      (b.type w contextRangeType).Every P
  | .blockString2 b, is_first, is_last, bPrevIsGap, bPrevIsPower, h => by
    rw [BlockString.weed, Bool.and_eq_true, Bool.not_eq_true'] at h
    exact ⟨hP _ ((b.guarded_type h.2).behind (by simpa using b.not_isPower_of_first h.1)),
      b.inner_type hP h.2⟩
  | .or b rest, is_first, is_last, bPrevIsGap, bPrevIsPower, h => by
    rw [BlockString.weed, Bool.and_eq_true, Bool.and_eq_true, Bool.not_eq_true'] at h
    exact ⟨⟨hP _ ((b.guarded_type h.2.1).behind (by simpa using b.not_isPower_of_first h.1)),
      b.inner_type hP h.2.1⟩, rest.every_type hP h.2.2⟩

theorem ObjectBlockString.every_type (hP : ∀ b : BlockString2 C, b.Guarded true → P b) :
    ∀ o : ObjectBlockString C, o.weed w = true → (o.type w).Every P
  | .objectBlock o, h => o.every_type hP (by rwa [ObjectBlockString.weed] at h)
  | .append rest o, h => by
    rw [ObjectBlockString.weed, Bool.and_eq_true] at h
    exact ⟨rest.every_type hP h.1, o.every_type hP h.2⟩

theorem Blocks.every_type (hP : ∀ b : BlockString2 C, b.Guarded true → P b)
    {contextRangeType : ObjectRangeType} :
    ∀ b : Blocks C, b.weed w = true → (b.type w contextRangeType).Every P
  | .blockString _ b, h => by
    rw [Blocks.weed, Bool.and_eq_true] at h
    exact b.every_type hP h.1
  | .unorderedGroup o, h => o.every_type hP (by rwa [Blocks.weed] at h)

end

end Every

/-- Nothing but a block that is no power block is next to a power block. -/
theorem BlockString2.Guarded.neighbours : ∀ {b : BlockString2 C} {afterPower : Bool}
    {before : List (BlockString1 C)} {power : BlockString1 C} {after : List (BlockString1 C)},
    b.Guarded afterPower → b.blocks = before ++ power :: after → power.isPower = true →
    (before = [] ∧ afterPower = false ∨
      ∃ front previous, before = front ++ [previous] ∧ previous.isPower = false) ∧
      ∃ next back, after = next :: back ∧ next.isPower = false
  | .blockString1 _ b, afterPower, before, power, after, h, hblocks, hpower => by
    obtain ⟨rfl, rfl, rfl⟩ : before = [] ∧ power = b ∧ after = [] := by
      simpa [BlockString2.blocks, List.singleton_eq_append_iff] using hblocks
    exact absurd hpower (by simpa [BlockString2.Guarded] using h)
  | .sequence _ b rest, afterPower, [], power, after, h, hblocks, hpower => by
    obtain ⟨rfl, rfl⟩ : b = power ∧ rest.blocks = after := by
      simpa [BlockString2.blocks] using hblocks
    have hrest := h.2
    rw [hpower] at hrest
    refine ⟨Or.inl ⟨rfl, ?_⟩, ?_⟩
    · by_contra hafter
      have := h.1 (by simpa using hafter)
      rw [hpower] at this
      cases this
    · cases rest with
      | blockString1 node next => exact ⟨next, [], rfl, hrest⟩
      | sequence node next back => exact ⟨next, back.blocks, rfl, hrest.1 rfl⟩
  | .sequence _ b rest, afterPower, first :: before, power, after, h, hblocks, hpower => by
    obtain ⟨rfl, hrest⟩ : b = first ∧ rest.blocks = before ++ power :: after := by
      simpa [BlockString2.blocks] using hblocks
    obtain ⟨hbefore, hafter⟩ := neighbours h.2 hrest hpower
    refine ⟨Or.inr ?_, hafter⟩
    obtain ⟨rfl, hb⟩ | ⟨front, previous, rfl, hprevious⟩ := hbefore
    · exact ⟨[], b, rfl, hb⟩
    · exact ⟨b :: front, previous, rfl, hprevious⟩

/-- In a guarded sequence every power block has a block before it and one behind it, and neither is
a power block. -/
theorem BlockString2.Guarded.powersFlanked {b : BlockString2 C} (h : b.Guarded true) :
    PowersFlanked b.blocks := by
  intro before power after hblocks hpower
  obtain ⟨⟨-, hafter⟩ | hbefore, hafter⟩ := h.neighbours hblocks hpower
  · cases hafter
  · exact ⟨hbefore, hafter⟩

/-- The first block of a typed sequence is one of the text, not a gap that was put in. -/
theorem BlockString2.exists_typedBlocks (b : BlockString2 C) :
    ∃ rest, b.typedBlocks w contextRangeType
      = (false, b.getBlockString1.type w contextRangeType) :: rest := by
  cases b with
  | blockString1 node b => exact ⟨[], rfl⟩
  | sequence node b rest =>
    rw [typedBlocks]
    split
    · exact ⟨_, rfl⟩
    · exact ⟨_, rfl⟩

/-- Leaving out which blocks were put in gives the typed sequence. -/
theorem BlockString2.map_typedBlocks : ∀ b : BlockString2 C,
    (b.typedBlocks w contextRangeType).map Prod.snd = (b.type w contextRangeType).blocks
  | .blockString1 _ b => rfl
  | .sequence _ b rest => by
    rw [typedBlocks, BlockString2.type]
    split
    · simp [blocks, map_typedBlocks rest]
    · simp [blocks, map_typedBlocks rest]

/-- A gap that is put in has a block of the text on either side, and neither is a gap or a power
block. -/
theorem BlockString2.insertedApart_typedBlocks : ∀ b : BlockString2 C,
    InsertedApart (b.typedBlocks w contextRangeType)
  | .blockString1 _ b => by simp [InsertedApart, typedBlocks]
  | .sequence node b rest => by
    have hrest := insertedApart_typedBlocks rest
    obtain ⟨back, hback⟩ := @exists_typedBlocks C w contextRangeType rest
    rw [typedBlocks]
    rw [hback] at hrest ⊢
    split
    · rename_i hinserts
      obtain ⟨hb, hnext⟩ := WeedEnv.insertsOptGap_eq hinserts
      rw [getBlockString1_type] at hnext
      simpa [InsertedApart, List.isChain_cons_cons] using ⟨by simpa using hb, by simpa using hnext,
        by simpa [InsertedApart] using hrest⟩
    · simpa [InsertedApart, List.isChain_cons_cons] using hrest

end Admits

/-! ## 6. No assertion fails -/

namespace Asserting

variable {C S σ : Type} {onAssert : OnAssert σ} {e : StartMonadEnv} {env : QueryEnv C S σ}
  {rGroup : ObjectBlockString C → Option (MQLResultCallback σ) → Bool →
    List (List Straw) → Eval σ Sheaf}

/-- An assertion that does not hold fails, as everywhere in the evaluator. -/
def Fails (onAssert : OnAssert σ) : Prop := onAssert = fun _ _ => failure

/-- A sequence that is evaluated begins with a block that is no power block. -/
def Safe (b : BlockString2 C) : Prop := b.Guarded true

/-- The symbol pass and the evaluator mean the same blocks when they ask for a power block. -/
theorem isPower_eq : ∀ b : BlockString1 C, b.isPower = b.getPowerBlock.isSome
  | .nonStar (.block block) => by cases block <;> rfl
  | .star (.block block) _ => by cases block <;> rfl
  | .nonStar (.blockString _) => rfl
  | .star (.blockString _) _ => rfl

/-- Where the next block is a power block, the assertion on it holds. -/
theorem getPowerBlock_eq {node : Nat} {b next : BlockString1 C} {power : Power}
    (h : next.getPowerBlock = some power) (rest : BlockString2 C)
    (hrest : rest.getBlockString1 = next) :
    (BlockString2.sequence node b rest).getPowerBlock onAssert = pure power := by
  rw [BlockString2.getPowerBlock, hrest]
  unfold BlockString1.getPowerBlock at h
  split at h
  · cases h
    rename_i heq
    rw [heq]
  · cases h

theorem ofOption_bind {α β : Type} (o : Option α) (f : α → Option β) :
    (ofOption (o.bind f) : Eval σ β) = ofOption o >>= fun a => ofOption (f a) := by
  cases o <;> rfl

theorem ofOption_map {α β : Type} (o : Option α) (f : α → β) :
    (ofOption (o.map f) : Eval σ β) = ofOption o >>= fun a => pure (f a) := by
  cases o <;> rfl

/-- A power block has no start monads: `getSMI` asserts that it is asked of no such block. -/
theorem getSMIBlock_eq {block : Block C} (h : Fails onAssert ∨ block.isPowerBlock = false)
    (U Su : SetOfMonads) (Sm : Int) (b : Bool) :
    getSMIBlock onAssert e block U Su Sm b = ofOption (block.getSMI e U Su Sm b) := by
  cases block with
  | powerBlock power =>
    obtain rfl | h := h
    · rfl
    · cases h
  | _ => rfl

mutual

theorem getSMI0_eq (U Su : SetOfMonads) (Sm : Int) : ∀ {b : BlockString0 C},
    Fails onAssert ∨ (BlockString1.nonStar b).isPower = false ∧ b.Every Safe →
    getSMI0 onAssert e b U Su Sm = ofOption (b.getSMI e U Su Sm)
  | .block block, h => by
    rw [getSMI0, BlockString0.getSMI]
    exact getSMIBlock_eq (h.imp_right And.left) U Su Sm true
  | .blockString b, h => by
    rw [getSMI0, BlockString0.getSMI]
    exact getSMI_eq U Su Sm (h.imp_right And.right)

theorem getSMI1_eq (U Su : SetOfMonads) (Sm : Int) : ∀ {b : BlockString1 C},
    Fails onAssert ∨ b.isPower = false ∧ b.Every Safe →
    getSMI1 onAssert e b U Su Sm = ofOption (b.getSMI e U Su Sm)
  | .nonStar b, h => by
    rw [getSMI1, BlockString1.getSMI]
    exact getSMI0_eq U Su Sm h
  | .star b starSOM, h => by
    rw [getSMI1, BlockString1.getSMI, getSMI0_eq U Su Sm h]
    split <;> rfl

theorem getSMI2_eq (U Su : SetOfMonads) (Sm : Int) : ∀ {b : BlockString2 C},
    Fails onAssert ∨ Safe b ∧ b.Inner Safe →
    getSMI2 onAssert e b U Su Sm = ofOption (b.getSMI e U Su Sm)
  | .blockString1 _ b, h => by
    rw [getSMI2, BlockString2.getSMI]
    exact getSMI1_eq U Su Sm h
  | .sequence _ b rest, h => by
    rw [getSMI2, BlockString2.getSMI]
    exact getSMI1_eq U Su Sm (h.imp_right fun h => ⟨h.1.1 rfl, h.2.1⟩)

theorem getSMI_eq (U Su : SetOfMonads) (Sm : Int) : ∀ {b : BlockString C},
    Fails onAssert ∨ b.Every Safe →
    getSMI onAssert e b U Su Sm = ofOption (b.getSMI e U Su Sm)
  | .blockString2 b, h => by
    rw [getSMI, BlockString.getSMI]
    exact getSMI2_eq U Su Sm h
  | .or b rest, h => by
    rw [getSMI, BlockString.getSMI, getSMI2_eq U Su Sm (h.imp_right And.left),
      getSMI_eq U Su Sm (h.imp_right And.right), Option.bind_eq_bind, ofOption_bind]
    refine bind_congr fun bs2SMI => ?_
    rw [ofOption_bind]

end

/-- The start monads of a block string, as the evaluator asks for them. -/
theorem getSMIBlockString_eq (b : BlockString C) (U Su : SetOfMonads) (Sm : Int) :
    (env.withStartMonads e).getSMIBlockString b U Su Sm
      = ofOption (b.getSMI e U Su Sm) >>= fun smi => pure smi.monads :=
  ofOption_map _ _

/-- The start monads of one block, as the power join asks for them. -/
theorem getSMIBlockString1_eq (b : BlockString1 C) (U Su : SetOfMonads) (Sm : Int) :
    (env.withStartMonads e).getSMIBlockString1 b U Su Sm
      = ofOption (b.getSMI e U Su Sm) >>= fun smi => pure smi.monads :=
  ofOption_map _ _

/-- Where its assertion holds, the power join is the one of the evaluator without assertions. -/
theorem rPowerBlock_eq (U Su : SetOfMonads) (maxRange : Int) (node : Nat) (power : Power)
    (rBlockString1 : Eval σ (List Straw)) (getSMI : Int → Eval σ (List Int))
    (rBlockString2 : Int → Eval σ (List Straw)) :
    rPowerBlock env U Su maxRange node (pure power) rBlockString1 getSMI rBlockString2
      = rBlockString2PowerBlock env U Su maxRange node power rBlockString1 getSMI
          rBlockString2 := by
  rw [rPowerBlock, rBlockString2PowerBlock]
  refine bind_congr fun bs1LOS => ?_
  cases bs1LOS with
  | nil => rfl
  | cons straw los =>
    simp only [List.isEmpty_cons, Bool.false_eq_true, if_false, pure_bind]
    rw [rBlockString2PowerBlock, pure_bind]

mutual

theorem rObjectBlock_eq : ∀ {o : ObjectBlock C}, Fails onAssert ∨ o.Every Safe →
    ∀ U Su Sm, rObjectBlock onAssert e (env.withStartMonads e) rGroup o U Su Sm
      = Evaluator.rObjectBlock (env.withStartMonads e) rGroup o U Su Sm
  | .mk info optBlocks, h, U, Su, Sm => by
    rw [rObjectBlock, Evaluator.rObjectBlock]
    simp only [rOptBlocks_eq (o := optBlocks) h]

theorem rGapBlock_eq : ∀ {g : GapBlock C}, Fails onAssert ∨ g.Every Safe →
    ∀ Su Sm emptyMo, rGapBlock onAssert e (env.withStartMonads e) rGroup g Su Sm emptyMo
      = Evaluator.rGapBlock (env.withStartMonads e) rGroup g Su Sm emptyMo
  | .mk retrieval obb optBlocks, h, Su, Sm, emptyMo => by
    rw [rGapBlock, Evaluator.rGapBlock]
    simp only [rOptBlocks_eq (o := optBlocks) h]

theorem rOptBlocks_eq : ∀ {o : OptBlocks C}, Fails onAssert ∨ o.Every Safe →
    ∀ U Su maxRange, rOptBlocks onAssert e (env.withStartMonads e) rGroup o U Su maxRange
      = Evaluator.rOptBlocks (env.withStartMonads e) rGroup o U Su maxRange
  | .null, _, U, Su, maxRange => by rw [rOptBlocks, Evaluator.rOptBlocks]
  | .blocks blocks, h, U, Su, maxRange => by
    rw [rOptBlocks, Evaluator.rOptBlocks, rBlocks_eq (b := blocks) h]

theorem rBlock_eq : ∀ {b : Block C},
    Fails onAssert ∨ b.isPowerBlock = false ∧ b.Every Safe →
    ∀ U Su Sm, rBlock onAssert e (env.withStartMonads e) rGroup b U Su Sm
      = Evaluator.rBlock (env.withStartMonads e) rGroup b U Su Sm
  | .gapBlock g, h, U, Su, Sm => by
    rw [rBlock, Evaluator.rBlock, rGapBlock_eq (g := g) (h.imp_right And.right)]
  | .optGapBlock g, h, U, Su, Sm => by
    rw [rBlock, Evaluator.rBlock, rGapBlock_eq (g := g) (h.imp_right And.right)]
  | .powerBlock power, h, U, Su, Sm => by
    rw [rBlock, Evaluator.rBlock]
    obtain rfl | h := h
    · rfl
    · cases h.1
  | .objectBlock o, h, U, Su, Sm => by
    rw [rBlock, Evaluator.rBlock, rObjectBlock_eq (o := o) (h.imp_right And.right)]
  | .objectBlockNOTEXIST (.mk info optBlocks), h, U, Su, Sm => by
    rw [rBlock, Evaluator.rBlock]
    simp only [rOptBlocks_eq (o := optBlocks) (h.imp_right And.right)]

theorem rBlockString0_eq : ∀ {b : BlockString0 C},
    Fails onAssert ∨ (BlockString1.nonStar b).isPower = false ∧ b.Every Safe →
    ∀ U Su Sm maxRange,
      rBlockString0 onAssert e (env.withStartMonads e) rGroup b U Su Sm maxRange
        = Evaluator.rBlockString0 (env.withStartMonads e) rGroup b U Su Sm maxRange
  | .block block, h, U, Su, Sm, maxRange => by
    rw [rBlockString0, Evaluator.rBlockString0]
    exact rBlock_eq h U Su Sm
  | .blockString b, h, U, Su, Sm, maxRange => by
    rw [rBlockString0, Evaluator.rBlockString0]
    exact rBlockString_eq (h.imp_right And.right) U Su Sm maxRange

theorem rBlockString1_eq : ∀ {b : BlockString1 C},
    Fails onAssert ∨ b.isPower = false ∧ b.Every Safe →
    ∀ U Su Sm maxRange,
      rBlockString1 onAssert e (env.withStartMonads e) rGroup b U Su Sm maxRange
        = Evaluator.rBlockString1 (env.withStartMonads e) rGroup b U Su Sm maxRange
  | .nonStar b, h, U, Su, Sm, maxRange => by
    rw [rBlockString1, Evaluator.rBlockString1]
    exact rBlockString0_eq h U Su Sm maxRange
  | .star b starSOM, h, U, Su, Sm, maxRange => by
    rw [rBlockString1, Evaluator.rBlockString1]
    simp only [rBlockString0_eq (b := b) h]

theorem rBlockString2_eq : ∀ {b : BlockString2 C},
    Fails onAssert ∨ Safe b ∧ b.Inner Safe →
    ∀ U Su Sm maxRange,
      rBlockString2 onAssert e (env.withStartMonads e) rGroup b U Su Sm maxRange
        = Evaluator.rBlockString2 (env.withStartMonads e) rGroup b U Su Sm maxRange
  | .blockString1 _ b, h, U, Su, Sm, maxRange => by
    rw [rBlockString2, Evaluator.rBlockString2]
    exact rBlockString1_eq h U Su Sm maxRange
  | .sequence node b (.blockString1 node' next), h, U, Su, Sm, maxRange => by
    have hb := rBlockString1_eq (b := b) (h.imp_right fun h => ⟨h.1.1 rfl, h.2.1⟩)
    have hnext := rBlockString2_eq (b := .blockString1 node' next)
      (h.imp_right fun h => ⟨h.1.2, h.2.2⟩)
    rw [rBlockString2, Evaluator.rBlockString2]
    dsimp only [BlockString2.nextIsPowerBlock]
    rw [pure_bind, BlockString2.getBlockString1, isPower_eq]
    cases hpower : next.getPowerBlock with
    | none => simp only [Option.isSome_none, Bool.false_eq_true, if_false, hb, hnext]
    | some power =>
      -- a power block at the end is not let in
      obtain rfl | h := h
      · rw [getPowerBlock_eq hpower _ rfl, Option.isSome_some, if_pos rfl, rPowerBlock_eq, hb]
      · have hlast : next.isPower = false := h.1.2
        rw [isPower_eq, hpower] at hlast
        cases hlast
  | .sequence node b (.sequence node' next nextButOne), h, U, Su, Sm, maxRange => by
    have hb := rBlockString1_eq (b := b) (h.imp_right fun h => ⟨h.1.1 rfl, h.2.1⟩)
    rw [rBlockString2, Evaluator.rBlockString2]
    dsimp only [BlockString2.nextIsPowerBlock]
    rw [pure_bind, BlockString2.getBlockString1, isPower_eq]
    cases hpower : next.getPowerBlock with
    | none =>
      have hfirst : next.isPower = false := by rw [isPower_eq, hpower]; rfl
      have hnext := rBlockString2_eq (b := .sequence node' next nextButOne)
        (h.imp_right fun h => ⟨⟨fun _ => hfirst, h.1.2.2⟩, h.2.2⟩)
      simp only [Option.isSome_none, Bool.false_eq_true, if_false, hb, hnext]
    | some power =>
      have hfirst : next.isPower = true := by rw [isPower_eq, hpower]; rfl
      have hbutOne : Fails onAssert ∨ Safe nextButOne ∧ nextButOne.Inner Safe := by
        refine h.imp_right fun h => ⟨?_, h.2.2.2⟩
        have hguarded := h.1.2.2
        rwa [hfirst] at hguarded
      have hrest := rBlockString2_eq (b := nextButOne) hbutOne
      have hsmi : ∀ Sm, getSMI1 onAssert e nextButOne.getBlockString1 U Su Sm
          = ofOption (nextButOne.getBlockString1.getSMI e U Su Sm) := by
        intro Sm
        refine getSMI1_eq U Su Sm (hbutOne.imp_right fun h => ⟨h.1.first, ?_⟩)
        cases nextButOne with
        | blockString1 node b => exact h.2
        | sequence node b rest => exact h.2.1
      rw [getPowerBlock_eq hpower _ rfl, Option.isSome_some, if_pos rfl, rPowerBlock_eq, hb]
      simp only [hrest, hsmi, getSMIBlockString1_eq]

theorem rBlockString_eq : ∀ {b : BlockString C}, Fails onAssert ∨ b.Every Safe →
    ∀ U Su Sm maxRange,
      rBlockString onAssert e (env.withStartMonads e) rGroup b U Su Sm maxRange
        = Evaluator.rBlockString (env.withStartMonads e) rGroup b U Su Sm maxRange
  | .blockString2 b, h, U, Su, Sm, maxRange => by
    rw [rBlockString, Evaluator.rBlockString]
    exact rBlockString2_eq h U Su Sm maxRange
  | .or b rest, h, U, Su, Sm, maxRange => by
    rw [rBlockString, Evaluator.rBlockString, rBlockString2_eq (b := b) (h.imp_right And.left),
      rBlockString_eq (b := rest) (h.imp_right And.right)]

theorem rObjectBlockString_eq : ∀ {o : ObjectBlockString C}, Fails onAssert ∨ o.Every Safe →
    ∀ U Su bContinueExecution,
      rObjectBlockString onAssert e (env.withStartMonads e) rGroup o U Su bContinueExecution
        = Evaluator.rObjectBlockString (env.withStartMonads e) rGroup o U Su bContinueExecution
  | .objectBlock o, h, U, Su, bContinueExecution => by
    rw [rObjectBlockString, Evaluator.rObjectBlockString]
    simp only [rObjectBlock_eq (o := o) h]
  | .append rest o, h, U, Su, bContinueExecution => by
    rw [rObjectBlockString, Evaluator.rObjectBlockString]
    simp only [rObjectBlock_eq (o := o) (h.imp_right And.right),
      rObjectBlockString_eq (o := rest) (h.imp_right And.left)]

theorem rBlocks_eq : ∀ {b : Blocks C}, Fails onAssert ∨ b.Every Safe →
    ∀ U Su maxRange pCallback bContinueExecution,
      rBlocks onAssert e (env.withStartMonads e) rGroup b U Su maxRange pCallback
          bContinueExecution
        = Evaluator.rBlocks (env.withStartMonads e) rGroup b U Su maxRange pCallback
          bContinueExecution
  | .blockString usingRange b, h, U, Su, maxRange, pCallback, bContinueExecution => by
    rw [rBlocks, Evaluator.rBlocks, getSMI_eq U Su Su.first (b := b) h]
    simp only [rBlockString_eq (b := b) h, getSMIBlockString_eq]
  | .unorderedGroup o, h, U, Su, maxRange, pCallback, bContinueExecution => by
    rw [rBlocks, Evaluator.rBlocks, rObjectBlockString_eq (o := o) h]

end

end Asserting

section Guards

variable {C S σ : Type}

/-- On a block string that was weeded, what an assertion about power blocks does when it fails makes
no difference to its evaluation; all power blocks, at any depth, have blocks on both sides that are
none, and no inserted `opt_gap_block` is next to a gap block, an `opt_gap_block` or a power block. -/
theorem BlockString.weed_guards_evaluator (w : WeedEnv C) (e : StartMonadEnv)
    (env : QueryEnv C S σ) (contextRangeType : ObjectRangeType) (b : BlockString C)
    {is_first is_last bPrevIsGap bPrevIsPower : Bool}
    (hweed : b.weed w is_first is_last bPrevIsGap bPrevIsPower = true) :
    (∀ (onAssert : OnAssert σ) (U Su : SetOfMonads) (Sm maxRange : Int),
      Asserting.rBlockString onAssert e (env.withStartMonads e)
          (fun _ => rBlocksOfUnorderedGroup) (b.type w contextRangeType) U Su Sm maxRange
        = rBlockString (env.withStartMonads e) (b.type w contextRangeType) U Su Sm maxRange) ∧
      ((b.type w contextRangeType).Every fun sequence => PowersFlanked sequence.blocks) ∧
      ∀ (sequence : BlockString2 C) (contextRangeType : ObjectRangeType),
        (sequence.typedBlocks w contextRangeType).map Prod.snd
            = (sequence.type w contextRangeType).blocks ∧
          InsertedApart (sequence.typedBlocks w contextRangeType) := by
  refine ⟨fun onAssert U Su Sm maxRange => ?_, ?_, fun sequence contextRangeType =>
    ⟨sequence.map_typedBlocks, sequence.insertedApart_typedBlocks⟩⟩
  · have hsafe : (b.type w contextRangeType).Every Asserting.Safe :=
      b.every_type (fun _ h => h) hweed
    exact Asserting.rBlockString_eq (Or.inr hsafe) U Su Sm maxRange
  · exact b.every_type (fun _ h => h.powersFlanked) hweed

/-- `[word]`. -/
def someWord : BlockString1 Unit :=
  .nonStar (.block (.objectBlock (.mk
    { obb := ⟨1, .kNoRetrieve⟩
      firstLast := .kNoFirstLast
      msrc := ⟨.kMSROPartOf, .kMSNSubstrate⟩
      featureConstraints := none
      hasNonParentORUs := false
      isAfterNonNOTEXISTInBlockString := false
      inst := [] } .null)))

/-- `[word] [word] .. [word]`. -/
def wordsAndPower : BlockString Unit :=
  .blockString2 (.sequence 1 someWord (.sequence 2 someWord
    (.sequence 3 (.nonStar (.block (.powerBlock ⟨0, maxMonad⟩))) (.blockString1 4 someWord))))

def plainWeedEnv : WeedEnv Unit where
  isExclamation := fun _ => false
  hasObjectReference := fun _ => false
  objectRangeType := fun _ => .singleRange
  weedFeatureConstraints := fun _ => true
  weedStarMonadSet := fun _ => true
  optGapBase := ⟨0, .kNoRetrieve⟩

theorem weed_guards_wordsAndPower :
    wordsAndPower.weed plainWeedEnv true true false false = true ∧
      ((wordsAndPower.type plainWeedEnv .multipleRange).Every fun sequence =>
        PowersFlanked sequence.blocks) := by
  have h : wordsAndPower.weed plainWeedEnv true true false false = true := by decide
  exact ⟨h, (BlockString.weed_guards_evaluator plainWeedEnv
    ⟨SetOfMonads.empty, fun _ => [], fun _ => 1, fun _ => false⟩
    (S := Unit) (σ := Unit)
    { getSMIBlockString := fun _ _ _ _ => failure
      getSMIBlockString1 := fun _ _ _ _ => failure
      getSMIObjectBlock := fun _ _ _ _ _ => failure
      setORUStraw := fun _ _ s => s
      retrieveFeatureValues := fun _ _ s => s
      solutions := fun _ _ => []
      compare := fun _ _ _ _ => true } .multipleRange wordsAndPower h).2.1⟩

end Guards

end Emdros
