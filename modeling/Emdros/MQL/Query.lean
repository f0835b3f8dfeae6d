/-
# Queries (`mql_query.h`, `mql_query.cpp`)

The syntax of a topographic query as the evaluator sees it, after weeding and the symbol and type
passes.  An object block carries what those passes and the retrieval of its inst have left in
it.  Names, marks, pre-query strings and `GET` lists are left out: the evaluator does not read
them.

The grammar has its levels for the precedence of its operators, and so do the types, which all
refer to one another:

* `BlockString0`: a block, or a block string in brackets;
* `BlockString1`: one of these, with or without a star and its set of monads;
* `BlockString2`: a sequence of these, where a power block counts as a member;
* `BlockString`: sequences with `OR` between them;
* `Blocks`: what stands inside another block, a block string or an unordered group.

The definitions on queries follow these types, one function to a level, and the proofs are mutual
inductions with one case to a constructor.  The constraints on features are of any type `C`: the
evaluator only asks whether an object satisfies one.
-/
import Emdros.Monads.SetOfMonads
import Emdros.EMdF.SkipList
import Emdros.MQL.FFeatures
import Emdros.MQL.Blocks

namespace Emdros

/-! ## 1. What a block holds -/

/-- `eFirstLast`. -/
inductive EFirstLast where
  | kFirst
  | kLast
  | kFirstAndLast
  | kNoFirstLast
  deriving DecidableEq, Repr

/-- `eMonadSetRelationOperation`. -/
inductive EMonadSetRelationOperation where
  | kMSROPartOf
  | kMSROStartsIn
  | kMSROOverlap
  deriving DecidableEq, Repr

/-- `eUniverseOrSubstrate`. -/
inductive EUniverseOrSubstrate where
  | kMSNUniverse
  | kMSNSubstrate
  deriving DecidableEq, Repr

/-- `MonadSetRelationClause`. -/
structure MonadSetRelationClause where
  operation : EMonadSetRelationOperation
  universeOrSubstrate : EUniverseOrSubstrate
  deriving DecidableEq, Repr

/-- `MonadSetRelationClause::exec`. -/
def MonadSetRelationClause.exec (c : MonadSetRelationClause)
    (objectSom U Su : SetOfMonads) : Option Bool :=
  let som := match c.universeOrSubstrate with
    | .kMSNSubstrate => Su
    | .kMSNUniverse => U
  match c.operation with
  | .kMSROPartOf => objectSom.partOf som
  | .kMSROOverlap => some (SetOfMonads.overlap objectSom som)
  | .kMSROStartsIn => some (objectSom.startsIn som)

/-- An `InstObject` with its monads; id_ds are not negative. -/
structure MonadedObject extends InstObject where
  last : Int
  monads : SetOfMonads
  idD_nonneg : 0 ≤ idD

/-- What an `ObjectBlock` holds besides its inner blocks; `inst` is in the order of the skip
list. -/
structure ObjectBlockInfo (C : Type) where
  obb : ObjectBlockBase
  firstLast : EFirstLast
  msrc : MonadSetRelationClause
  featureConstraints : Option (FFeatures C)
  hasNonParentORUs : Bool
  isAfterNonNOTEXISTInBlockString : Bool
  inst : List MonadedObject

/-- `objectsAtSm(Sm, ci)`: search for `Sm`, and the end if the object there does not start at
`Sm`. -/
def ObjectBlockInfo.objectsAtSm {C : Type} (info : ObjectBlockInfo C) (Sm : Int) :
    List MonadedObject :=
  match info.inst.dropWhile fun o => o.first < Sm with
  | [] => []
  | o :: rest => if o.first ≠ Sm then [] else o :: rest

/-- `Power`: `.. BETWEEN low AND high`. -/
structure Power where
  limitLow : Int
  limitHigh : Int
  deriving DecidableEq, Repr

/-! ## 2. Blocks -/

mutual

inductive ObjectBlock (C : Type) : Type where
  | mk (info : ObjectBlockInfo C) (optBlocks : OptBlocks C)

/-- `GapBlock` and `OptGapBlock`. -/
inductive GapBlock (C : Type) : Type where
  | mk (retrieval : ERetrieval) (obb : ObjectBlockBase) (optBlocks : OptBlocks C)

/-- `opt_blocks`: the pointer to the inner blocks, or null. -/
inductive OptBlocks (C : Type) : Type where
  | null
  | blocks (blocks : Blocks C)

inductive Block (C : Type) : Type where
  | gapBlock (gapBlock : GapBlock C)
  | optGapBlock (gapBlock : GapBlock C)
  | powerBlock (power : Power)
  | objectBlock (objectBlock : ObjectBlock C)
  | objectBlockNOTEXIST (objectBlock : ObjectBlock C)

/-- `block_string0 ::= block | "[" block_string "]"`. -/
inductive BlockString0 (C : Type) : Type where
  | block (block : Block C)
  | blockString (blockString : BlockString C)

/-- `block_string1 ::= block_string0 | block_string0 "*" star_monad_set`. -/
inductive BlockString1 (C : Type) : Type where
  | nonStar (blockString0 : BlockString0 C)
  | star (blockString0 : BlockString0 C) (starSOM : SetOfMonads)

/-- `block_string2 ::= block_string1 | block_string1 block_string2`, with node numbers. -/
inductive BlockString2 (C : Type) : Type where
  | blockString1 (node : Nat) (blockString1 : BlockString1 C)
  | sequence (node : Nat) (blockString1 : BlockString1 C) (blockString2 : BlockString2 C)

/-- `block_string ::= block_string2 | block_string2 "OR" block_string`. -/
inductive BlockString (C : Type) : Type where
  | blockString2 (blockString2 : BlockString2 C)
  | or (blockString2 : BlockString2 C) (blockString : BlockString C)

/-- `object_block_string ::= object_block | object_block_string object_block`. -/
inductive ObjectBlockString (C : Type) : Type where
  | objectBlock (objectBlock : ObjectBlock C)
  | append (objectBlockString : ObjectBlockString C) (objectBlock : ObjectBlock C)

/-- `blocks ::= using_range_clause block_string | using_range_clause unordered_group`.  The
range of an unordered group is never read. -/
inductive Blocks (C : Type) : Type where
  | blockString (usingRange : Option UsingRange) (blockString : BlockString C)
  | unorderedGroup (objectBlockString : ObjectBlockString C)

end

namespace BlockString1

variable {C : Type}

def getBlockString0 : BlockString1 C → BlockString0 C
  | nonStar b => b
  | star b _ => b

/-- The power block, if this is one: what `nextIsPowerBlock()` and `getPowerBlock()` ask of
the block string that comes next. -/
def getPowerBlock (b : BlockString1 C) : Option Power :=
  match b.getBlockString0 with
  | .block (.powerBlock power) => some power
  | _ => none

end BlockString1

def BlockString2.getBlockString1 {C : Type} : BlockString2 C → BlockString1 C
  | blockString1 _ b => b
  | sequence _ b _ => b

end Emdros
