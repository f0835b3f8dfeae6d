/-
# Making the insts before a query (`aggregateQuery` in `mql_query.cpp`)

Before `R_topograph` the insts of all object blocks are made.  Where
`canChooseAQStrategyInnermostFirst` allows it, this is done innermost first: a block without inner
blocks gets those of its objects that overlap the substrate with its gaps filled, and a block with
inner blocks those that overlap what its inner blocks have got.  `characteristic_set` is what a part
of the query has got.

Blocks with the same characteristic string share one inst.  The pre-query leaves out objects that
cannot satisfy the feature constraints.  The other strategy is left out.
-/
import Emdros.MQL.SelectQueries

namespace Emdros

open Partial

/-! ## 1. What is read of the database -/

/-- What `aggregateQuery` reads beside the blocks.  `objects` is what the database has of the type
of an object block, in the order of a skip list; `comparison` and `backend` are what the backend
can express of a comparison, and what that means. -/
structure AggregateEnv (C E : Type) extends StartMonadEnv where
  objectTypeName : ObjectBlockBase → List UInt8
  preQueryString : ObjectBlockBase → List UInt8
  featureNames : ObjectBlockBase → List (List UInt8)
  doCalculatePreQueryString : ObjectBlockBase → Bool
  hasORU : C → Bool
  comparison : Bool → C → Option E
  backend : E → MonadedObject → Bool
  objects : ObjectBlockBase → List MonadedObject

section Constraints

variable {C : Type} (hasORU : C → Bool)

mutual

/-- `FFactor::hasORU`. -/
def FFactor.hasORU : FFactor C → Bool
  | .not ffactor => ffactor.hasORU
  | .parenthesis ffeatures => ffeatures.hasORU
  | .comparison c => hasORU c

def FTerm.hasORU : FTerm C → Bool
  | .ffactor ffactor => ffactor.hasORU
  | .and fterm ffactor => fterm.hasORU || ffactor.hasORU

def FFeatures.hasORU : FFeatures C → Bool
  | .fterm fterm => fterm.hasORU
  | .or ffeatures fterm => ffeatures.hasORU || fterm.hasORU

end

end Constraints

namespace AggregateEnv

variable {C E : Type} (a : AggregateEnv C E)

/-- What the pre-query asks of an object. -/
def preQuery (info : ObjectBlockInfo C) (o : MonadedObject) : Bool :=
  if !a.doCalculatePreQueryString info.obb then true
  else
    match info.featureConstraints.bind fun f => f.getEMdFConstraints a.comparison with
    | none => true
    | some constraints => constraints.eval fun c => a.backend c o

/-- The objects that the pre-query lets through. -/
def candidates (info : ObjectBlockInfo C) : List MonadedObject :=
  (a.objects info.obb).filter (a.preQuery info)

/-- `R_inst` with `kMSROOverlap`; these are the objects that `getObjectsHavingMonadsIn` gives. -/
def rInst (info : ObjectBlockInfo C) (Su : SetOfMonads) : Option (List MonadedObject) := do
  let characteristicSet ←
    match info.msrc.universeOrSubstrate with
    | .kMSNUniverse => SetOfMonads.empty.add Su.first Su.last
    | .kMSNSubstrate => some Su
  some ((a.candidates info).filter fun o => SetOfMonads.overlap o.monads characteristicSet)

end AggregateEnv

/-! ## 2. When the strategy is chosen -/

section CanChoose

variable {C : Type}

/-- `Block::hasObjectBlockInBlockString`. -/
def Block.hasObjectBlockInBlockString : Block C → Bool
  | .gapBlock _ => false
  | .optGapBlock _ => false
  | .powerBlock _ => false
  | .objectBlock _ => true
  | .objectBlockNOTEXIST _ => false

mutual

def BlockString0.hasObjectBlockInBlockString : BlockString0 C → Bool
  | .block b => b.hasObjectBlockInBlockString
  | .blockString b => b.hasObjectBlockInBlockString

def BlockString1.hasObjectBlockInBlockString : BlockString1 C → Bool
  | .nonStar b => b.hasObjectBlockInBlockString
  | .star b _ => b.hasObjectBlockInBlockString

def BlockString2.hasObjectBlockInBlockString : BlockString2 C → Bool
  | .blockString1 _ b => b.hasObjectBlockInBlockString
  | .sequence _ b rest => b.hasObjectBlockInBlockString || rest.hasObjectBlockInBlockString

def BlockString.hasObjectBlockInBlockString : BlockString C → Bool
  | .blockString2 b => b.hasObjectBlockInBlockString
  | .or b rest => b.hasObjectBlockInBlockString || rest.hasObjectBlockInBlockString

end

variable (hasORU : C → Bool)

mutual

/-- `canChooseAQStrategyInnermostFirst`. -/
def ObjectBlock.canChooseAQStrategyInnermostFirst : ObjectBlock C → Bool
  | .mk info optBlocks =>
    (match info.featureConstraints with
      | some f => !f.hasORU hasORU
      | none => true) &&
      optBlocks.canChooseAQStrategyInnermostFirst info.featureConstraints.isSome

/-- Without inner blocks there must be feature constraints. -/
def OptBlocks.canChooseAQStrategyInnermostFirst : OptBlocks C → Bool → Bool
  | .null, hasConstraints => hasConstraints
  | .blocks b, _ => b.canChooseAQStrategyInnermostFirst

def GapBlock.canChooseAQStrategyInnermostFirst : GapBlock C → Bool
  | .mk _ _ .null => true
  | .mk _ _ (.blocks _) => false

def Block.canChooseAQStrategyInnermostFirst : Block C → Bool
  | .gapBlock b => b.canChooseAQStrategyInnermostFirst
  | .optGapBlock b => b.canChooseAQStrategyInnermostFirst
  | .powerBlock _ => true
  | .objectBlock b => b.canChooseAQStrategyInnermostFirst
  | .objectBlockNOTEXIST _ => false

def BlockString0.canChooseAQStrategyInnermostFirst : BlockString0 C → Bool
  | .block b => b.canChooseAQStrategyInnermostFirst
  | .blockString b => b.canChooseAQStrategyInnermostFirst

def BlockString1.canChooseAQStrategyInnermostFirst : BlockString1 C → Bool
  | .nonStar b => b.canChooseAQStrategyInnermostFirst
  | .star _ _ => false

def BlockString2.canChooseAQStrategyInnermostFirst : BlockString2 C → Bool
  | .blockString1 _ b =>
    b.hasObjectBlockInBlockString && b.canChooseAQStrategyInnermostFirst
  | .sequence _ b rest =>
    (b.hasObjectBlockInBlockString || rest.hasObjectBlockInBlockString) &&
      (b.canChooseAQStrategyInnermostFirst && rest.canChooseAQStrategyInnermostFirst)

def BlockString.canChooseAQStrategyInnermostFirst : BlockString C → Bool
  | .blockString2 b => b.canChooseAQStrategyInnermostFirst
  | .or b rest => b.canChooseAQStrategyInnermostFirst && rest.canChooseAQStrategyInnermostFirst

def ObjectBlockString.canChooseAQStrategyInnermostFirst : ObjectBlockString C → Bool
  | .objectBlock b => b.canChooseAQStrategyInnermostFirst
  | .append bs b =>
    b.canChooseAQStrategyInnermostFirst && bs.canChooseAQStrategyInnermostFirst

def Blocks.canChooseAQStrategyInnermostFirst : Blocks C → Bool
  | .blockString _ b => b.canChooseAQStrategyInnermostFirst
  | .unorderedGroup b => b.canChooseAQStrategyInnermostFirst

end

end CanChoose

/-! ## 3. Characteristic strings -/

/-- `MonadSetRelationClause::calculateCharacteristicString`. -/
def MonadSetRelationClause.calculateCharacteristicString (ourMonadSet : List UInt8)
    (c : MonadSetRelationClause) : List UInt8 :=
  (match c.operation with
    | .kMSROPartOf => Lexer.bytes "PO"
    | .kMSROOverlap => Lexer.bytes "OL"
    | .kMSROStartsIn => Lexer.bytes "SI") ++
  (Lexer.bytes "(" ++ ourMonadSet ++ Lexer.bytes ",") ++
  (match c.universeOrSubstrate with
    | .kMSNSubstrate => Lexer.bytes "Su)"
    | .kMSNUniverse => Lexer.bytes "U)")

section Strings

variable {C E : Type} (a : AggregateEnv C E)

/-- `calculateCharacteristicStringInnermost`: the relation is always `overlap`. -/
def AggregateEnv.calculateCharacteristicStringInnermost (info : ObjectBlockInfo C)
    (pre : List UInt8) : List UInt8 :=
  pre ++ a.objectTypeName info.obb ++ Lexer.bytes "," ++ a.preQueryString info.obb ++
    Lexer.bytes "#MSRC#" ++
    MonadSetRelationClause.calculateCharacteristicString (a.ourMonadSet info.obb)
      { info.msrc with operation := .kMSROOverlap } ++
    Lexer.bytes "#FEAT#" ++
    (a.featureNames info.obb).flatMap fun name => Lexer.bytes "," ++ name

mutual

/-- `calculateMMapInnermost`: the string that it returns; of an object block, its characteristic
string. -/
def ObjectBlock.charString : ObjectBlock C → List UInt8
  | .mk info optBlocks =>
    a.calculateCharacteristicStringInnermost info (optBlocks.charString ++ Lexer.bytes ";")

def OptBlocks.charString : OptBlocks C → List UInt8
  | .null => []
  | .blocks b => b.charString

def GapBlock.charString : GapBlock C → List UInt8
  | .mk _ _ optBlocks => Lexer.bytes "gap," ++ optBlocks.charString

def Block.charString : Block C → List UInt8
  | .gapBlock b => b.charString
  | .optGapBlock b => b.charString
  | .powerBlock _ => []
  | .objectBlock b => b.charString
  | .objectBlockNOTEXIST b => b.charString

def BlockString0.charString : BlockString0 C → List UInt8
  | .block b => b.charString
  | .blockString b => b.charString

def BlockString1.charString : BlockString1 C → List UInt8
  | .nonStar b => b.charString
  | .star b _ => b.charString

def BlockString2.charString : BlockString2 C → List UInt8
  | .blockString1 _ b => b.charString
  | .sequence _ b rest => b.charString ++ Lexer.bytes ";" ++ rest.charString

def BlockString.charString : BlockString C → List UInt8
  | .blockString2 b => b.charString
  | .or b rest => b.charString ++ Lexer.bytes ";" ++ rest.charString

def ObjectBlockString.charString : ObjectBlockString C → List UInt8
  | .objectBlock b => b.charString ++ Lexer.bytes ";"
  | .append bs b => b.charString ++ Lexer.bytes ";" ++ bs.charString

def Blocks.charString : Blocks C → List UInt8
  | .blockString _ b => b.charString
  | .unorderedGroup b => Lexer.bytes "unorderedgroup," ++ b.charString

end

end Strings

/-! ## 4. `aggregateQuery` -/

/-- The insts that have been made, with the characteristic strings of their blocks and in this
order.  `m_mmap` has all object blocks from the start, but those without an inst are passed over. -/
abbrev MMap := List (List UInt8 × List MonadedObject)

/-- `almostRealBigUnion`. -/
def almostRealBigUnion (inst : List MonadedObject) : Option FastSetOfMonads :=
  inst.foldlM (fun result o => result.add o.first o.last) FastSetOfMonads.empty

section Aggregate

variable {C E : Type} (a : AggregateEnv C E)

namespace AggregateEnv

/-- `ObjectBlock::makeInst` with `kMSROOverlap`. -/
def makeInst (info : ObjectBlockInfo C) (characteristicString : List UInt8) (Su : SetOfMonads) :
    StateT MMap Option (List MonadedObject) := do
  match (← get).lookup characteristicString with
  | some inst => pure inst
  | none =>
    let inst ← ofOption (a.rInst info Su)
    modify fun mmap => mmap ++ [(characteristicString, inst)]
    pure inst

/-- `ObjectBlock::aggregateQuery` without inner blocks: the new `characteristic_set`, and the
inst. -/
def aggregateWithout (info : ObjectBlockInfo C) (characteristicString : List UInt8)
    (characteristicSet : FastSetOfMonads) (Su : SetOfMonads) (largestObjectLengthAbove : Int) :
    StateT MMap Option (FastSetOfMonads × List MonadedObject) := do
  let localCharacteristicSet ← ofOption (Su.fillGaps largestObjectLengthAbove)
  let inst ← a.makeInst info characteristicString localCharacteristicSet
  let CS1 ← ofOption (almostRealBigUnion inst)
  let filled ← ofOption (CS1.fillGaps largestObjectLengthAbove)
  let characteristicSet ← ofOption (characteristicSet.unionWith filled)
  pure (characteristicSet, inst)

/-- The same with inner blocks; `CS` is what they have got. -/
def aggregateWith (info : ObjectBlockInfo C) (characteristicString : List UInt8)
    (characteristicSet CS : FastSetOfMonads) (largestObjectLengthAbove : Int) :
    StateT MMap Option (FastSetOfMonads × List MonadedObject) :=
  if CS.isEmpty then do
    -- the block gets an empty inst, which others may borrow
    modify fun mmap => mmap ++ [(characteristicString, [])]
    pure (CS, [])
  else do
    let CS ← ofOption (CS.fillGaps largestObjectLengthAbove)
    let inst ← a.makeInst info characteristicString CS.toSetOfMonads
    let CS1 ← ofOption (almostRealBigUnion inst)
    let characteristicSet ← ofOption (characteristicSet.unionWith CS)
    let filled ← ofOption (CS1.fillGaps largestObjectLengthAbove)
    let characteristicSet ← ofOption (characteristicSet.unionWith filled)
    pure (characteristicSet, inst)

end AggregateEnv

mutual

/-- `aggregateQuery` with `kAQSInnermostFirst`: the new `characteristic_set`, and the part of the
query with its insts. -/
def ObjectBlock.aggregateQuery : ObjectBlock C → FastSetOfMonads → SetOfMonads → Int →
    StateT MMap Option (FastSetOfMonads × ObjectBlock C)
  | .mk info optBlocks, characteristicSet, Su, largestObjectLengthAbove => do
    let lola := max (a.largestObjectLength info.obb) largestObjectLengthAbove
    let characteristicString := (ObjectBlock.mk info optBlocks).charString a
    match ← optBlocks.aggregateQuery Su lola with
    | none =>
      let (characteristicSet, inst) ←
        a.aggregateWithout info characteristicString characteristicSet Su lola
      pure (characteristicSet, .mk { info with inst := inst } .null)
    | some (CS, blocks) =>
      let (characteristicSet, inst) ←
        a.aggregateWith info characteristicString characteristicSet CS lola
      pure (characteristicSet, .mk { info with inst := inst } (.blocks blocks))

/-- What the inner blocks get, if there are some. -/
def OptBlocks.aggregateQuery : OptBlocks C → SetOfMonads → Int →
    StateT MMap Option (Option (FastSetOfMonads × Blocks C))
  | .null, _, _ => pure none
  | .blocks b, Su, largestObjectLengthAbove => do
    let r ← b.aggregateQuery .empty Su largestObjectLengthAbove
    pure (some r)

/-- Of a gap block with inner blocks, the assertion "We should not get here" fails. -/
def GapBlock.aggregateQuery : GapBlock C → FastSetOfMonads →
    StateT MMap Option (FastSetOfMonads × GapBlock C)
  | .mk retrieval obb .null, characteristicSet => pure (characteristicSet, .mk retrieval obb .null)
  | .mk _ _ (.blocks _), _ => failure

def Block.aggregateQuery : Block C → FastSetOfMonads → SetOfMonads → Int →
    StateT MMap Option (FastSetOfMonads × Block C)
  | .gapBlock b, characteristicSet, _, _ => do
    let (characteristicSet, b) ← b.aggregateQuery characteristicSet
    pure (characteristicSet, .gapBlock b)
  | .optGapBlock b, characteristicSet, _, _ => do
    let (characteristicSet, b) ← b.aggregateQuery characteristicSet
    pure (characteristicSet, .optGapBlock b)
  | .powerBlock power, characteristicSet, _, _ => pure (characteristicSet, .powerBlock power)
  | .objectBlock b, characteristicSet, Su, lola => do
    let (characteristicSet, b) ← b.aggregateQuery characteristicSet Su lola
    pure (characteristicSet, .objectBlock b)
  | .objectBlockNOTEXIST b, characteristicSet, Su, lola => do
    let (characteristicSet, b) ← b.aggregateQuery characteristicSet Su lola
    pure (characteristicSet, .objectBlockNOTEXIST b)

def BlockString0.aggregateQuery : BlockString0 C → FastSetOfMonads → SetOfMonads → Int →
    StateT MMap Option (FastSetOfMonads × BlockString0 C)
  | .block b, characteristicSet, Su, lola => do
    let (characteristicSet, b) ← b.aggregateQuery characteristicSet Su lola
    pure (characteristicSet, .block b)
  | .blockString b, characteristicSet, Su, lola => do
    let (characteristicSet, b) ← b.aggregateQuery characteristicSet Su lola
    pure (characteristicSet, .blockString b)

def BlockString1.aggregateQuery : BlockString1 C → FastSetOfMonads → SetOfMonads → Int →
    StateT MMap Option (FastSetOfMonads × BlockString1 C)
  | .nonStar b, characteristicSet, Su, lola => do
    let (characteristicSet, b) ← b.aggregateQuery characteristicSet Su lola
    pure (characteristicSet, .nonStar b)
  | .star b starSOM, characteristicSet, Su, lola => do
    let (characteristicSet, b) ← b.aggregateQuery characteristicSet Su lola
    pure (characteristicSet, .star b starSOM)

def BlockString2.aggregateQuery : BlockString2 C → FastSetOfMonads → SetOfMonads → Int →
    StateT MMap Option (FastSetOfMonads × BlockString2 C)
  | .blockString1 node b, characteristicSet, Su, lola => do
    let (CS1, b) ← b.aggregateQuery .empty Su lola
    let characteristicSet ← ofOption (characteristicSet.unionWith CS1)
    pure (characteristicSet, .blockString1 node b)
  | .sequence node b rest, characteristicSet, Su, lola => do
    let (CS1, b) ← b.aggregateQuery .empty Su lola
    let characteristicSet ← ofOption (characteristicSet.unionWith CS1)
    let (CS2, rest) ← rest.aggregateQuery .empty Su lola
    let characteristicSet ← ofOption (characteristicSet.unionWith CS2)
    pure (characteristicSet, .sequence node b rest)

def BlockString.aggregateQuery : BlockString C → FastSetOfMonads → SetOfMonads → Int →
    StateT MMap Option (FastSetOfMonads × BlockString C)
  | .blockString2 b, characteristicSet, Su, lola => do
    let (CS, b) ← b.aggregateQuery .empty Su lola
    let characteristicSet ← ofOption (characteristicSet.unionWith CS)
    pure (characteristicSet, .blockString2 b)
  | .or b rest, characteristicSet, Su, lola => do
    let (CS, b) ← b.aggregateQuery .empty Su lola
    let characteristicSet ← ofOption (characteristicSet.unionWith CS)
    let (CS1, rest) ← rest.aggregateQuery .empty Su lola
    let characteristicSet ← ofOption (characteristicSet.unionWith CS1)
    pure (characteristicSet, .or b rest)

def ObjectBlockString.aggregateQuery : ObjectBlockString C → FastSetOfMonads → SetOfMonads → Int →
    StateT MMap Option (FastSetOfMonads × ObjectBlockString C)
  | .objectBlock b, characteristicSet, Su, lola => do
    let (CS2, b) ← b.aggregateQuery .empty Su lola
    let characteristicSet ← ofOption (characteristicSet.unionWith FastSetOfMonads.empty)
    let characteristicSet ← ofOption (characteristicSet.unionWith CS2)
    pure (characteristicSet, .objectBlock b)
  | .append bs b, characteristicSet, Su, lola => do
    let (CS1, bs) ← bs.aggregateQuery .empty Su lola
    let (CS2, b) ← b.aggregateQuery .empty Su lola
    let characteristicSet ← ofOption (characteristicSet.unionWith CS1)
    let characteristicSet ← ofOption (characteristicSet.unionWith CS2)
    pure (characteristicSet, .append bs b)

def Blocks.aggregateQuery : Blocks C → FastSetOfMonads → SetOfMonads → Int →
    StateT MMap Option (FastSetOfMonads × Blocks C)
  | .blockString usingRange b, characteristicSet, Su, lola => do
    let (characteristicSet, b) ← b.aggregateQuery characteristicSet Su lola
    pure (characteristicSet, .blockString usingRange b)
  | .unorderedGroup b, characteristicSet, Su, lola => do
    let (characteristicSet, b) ← b.aggregateQuery characteristicSet Su lola
    pure (characteristicSet, .unorderedGroup b)

end

end Aggregate

end Emdros
