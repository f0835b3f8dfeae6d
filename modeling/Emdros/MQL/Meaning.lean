/-
# What a topographic query means

The meaning of a query without object references, said without an evaluation: no state, no
exceptions, no lists of start monads.  `holds` is what the comparisons of features say of an object.

An object answers a block at a monad if it starts there, obeys `FIRST` and `LAST`, is related to the
universe or substrate as the block says (`Relates`, on sets of monads), satisfies the feature
constraints, and its inner blocks have an answer within its own monads.  A string of blocks is
answered by straws that follow one another: the second part begins behind the end of the first, or
behind a power block at each monad of the universe that leaves out as many as it allows.  Between
brackets the answers are those at any monad of the universe, in order.

`Answers` shows that the evaluator returns just this.
-/
import Emdros.Base.Gaps
import Emdros.MQL.NotExist

namespace Emdros

open SpanList IntGaps

/-! ## 1. Objects and gaps -/

/-- The relation of an object to the universe or the substrate. -/
def MonadSetRelationClause.Holds (c : MonadSetRelationClause) (monads U Su : Set Int) : Prop :=
  c.operation.Relates monads <|
    match c.universeOrSubstrate with
    | .kMSNSubstrate => Su
    | .kMSNUniverse => U

/-- `FIRST`, `LAST` and `FIRST AND LAST`: the object starts or ends with the substrate. -/
def EFirstLast.Obeyed : EFirstLast → MonadedObject → Set Int → Prop
  | .kNoFirstLast, _, _ => True
  | .kFirst, o, Su => IsLeast Su o.first
  | .kLast, o, Su => IsGreatest Su o.last
  | .kFirstAndLast, o, Su => IsLeast Su o.first ∧ IsGreatest Su o.last

/-- The range of two monads. -/
def monadsBetween (first last : Int) : SetOfMonads :=
  (SetOfMonads.empty.add first last).getD SetOfMonads.empty

/-- Where the gap that starts at a monad ends, if there is one. -/
noncomputable def gapAt (Su : Set Int) (Sm : Int) : Option Int :=
  open Classical in if h : ∃ b, IsGap Su Sm b then some h.choose else none

/-- A straw of one matched object, unless its inner blocks have no answer. -/
def withInner (inner : Option Sheaf) (mo : Option Sheaf → MatchedObject) : List Straw :=
  if inner.any Sheaf.isFail then [] else [Straw.new.append (mo inner)]

/-- How many monads a power block leaves out: `max_range` bounds both its limits. -/
def Power.Allows (power : Power) (maxRange last m : Int) : Prop :=
  min power.limitLow (min power.limitHigh maxRange) ≤ m - (last + 1) ∧
    (min power.limitHigh maxRange = maxMonad ∨
      m - (last + 1) ≤ min power.limitHigh maxRange)

/-! ## 2. Stars -/

/-- The sequences of so many repetitions. -/
def repetitions (straws : Int → List Straw) (Sm : Int) : Nat → List (List Straw)
  | 0 => [[]]
  | n + 1 => (repetitions straws Sm n).flatMap fun ts =>
    (straws (nextMonad Sm ts)).map fun t => ts ++ [t]

/-- A star: nothing, and the sequences of each number of repetitions joined. -/
def starStraws (starSOM : SetOfMonads) (Sm : Int) (straws : Int → List Straw) : List Straw :=
  (if 0 ∈ starSOM.mem then [Straw.skipped Sm] else []) ++
    (repetitionsAfter starSOM 0).flatMap fun n => (repetitions straws Sm n).map Straw.concat

/-! ## 3. Queries -/

section Meaning

variable {C : Type} (holds : C → MonadedObject → Bool)

def ObjectBlock.info : ObjectBlock C → ObjectBlockInfo C
  | mk info _ => info

/-- What is asked of an object apart from its inner blocks. -/
def ObjectBlockInfo.Accepts (info : ObjectBlockInfo C) (U Su : SetOfMonads) (o : MonadedObject) :
    Prop :=
  info.firstLast.Obeyed o Su.mem ∧ info.msrc.Holds o.monads.mem U.mem Su.mem ∧
    ∀ f, info.featureConstraints = some f → f.eval (fun c => holds c o) = true

open Classical in
mutual

/-- The answers of an object block at a monad. -/
noncomputable def ObjectBlock.straws : ObjectBlock C → SetOfMonads → SetOfMonads → Int →
    List Straw
  | .mk info optBlocks, U, Su, Sm =>
    (info.inst.filter fun o => o.first = Sm ∧ info.Accepts holds U Su o).flatMap fun o =>
      withInner (optBlocks.sheaf (monadsBetween o.first o.last) o.monads maxMonad) fun inner =>
        MatchedObject.ofObject o.idD o.monads inner info.obb

/-- The answers of a gap block; an optional one is answered by nothing where there is no gap. -/
noncomputable def GapBlock.straws : GapBlock C → SetOfMonads → Int → Bool → List Straw
  | .mk retrieval obb optBlocks, Su, Sm, optional =>
    match gapAt Su.mem Sm with
    | some m =>
      withInner (optBlocks.sheaf (monadsBetween Sm m) (monadsBetween Sm m) maxMonad) fun inner =>
        MatchedObject.ofGap (monadsBetween Sm m) obb (retrieval ≠ .kNoRetrieve)
          (retrieval = .kRetrieveFocus) inner
    | none => if optional then [Straw.skipped Sm] else []

noncomputable def OptBlocks.sheaf : OptBlocks C → SetOfMonads → SetOfMonads → Int → Option Sheaf
  | .null, _, _, _ => none
  | .blocks blocks, U, Su, maxRange => some (blocks.sheaf U Su maxRange)

noncomputable def Block.straws : Block C → SetOfMonads → SetOfMonads → Int → List Straw
  | .gapBlock b, _, Su, Sm => b.straws Su Sm false
  | .optGapBlock b, _, Su, Sm => b.straws Su Sm true
  | .powerBlock _, _, _, _ => []
  | .objectBlock b, U, Su, Sm => b.straws U Su Sm
  | .objectBlockNOTEXIST b, U, Su, Sm =>
    if ∃ m ∈ (notExistSet b.info Sm U).mem, notExistStart b.info U Sm ≤ m ∧
      b.straws (notExistSet b.info Sm U) (notExistSet b.info Sm Su) m ≠ [] then []
    else [Straw.skipped Sm]

noncomputable def BlockString0.straws : BlockString0 C → SetOfMonads → SetOfMonads → Int → Int →
    List Straw
  | .block b, U, Su, Sm, _ => b.straws U Su Sm
  | .blockString b, U, Su, Sm, maxRange => b.straws U Su Sm maxRange

noncomputable def BlockString1.straws : BlockString1 C → SetOfMonads → SetOfMonads → Int → Int →
    List Straw
  | .nonStar b, U, Su, Sm, maxRange => b.straws U Su Sm maxRange
  | .star b starSOM, U, Su, Sm, maxRange =>
    starStraws starSOM Sm fun Sm => b.straws U Su Sm maxRange

/-- The answers of blocks that follow one another. -/
noncomputable def BlockString2.straws : BlockString2 C → SetOfMonads → SetOfMonads → Int → Int →
    List Straw
  | .blockString1 _ b, U, Su, Sm, maxRange => b.straws U Su Sm maxRange
  | .sequence _ b (.blockString1 node' next), U, Su, Sm, maxRange =>
    (b.straws U Su Sm maxRange).flatMap fun first =>
      prependToAll first ((BlockString2.blockString1 node' next).straws U Su (first.last + 1)
        maxRange)
  | .sequence _ b (.sequence node' next nextButOne), U, Su, Sm, maxRange =>
    match next.getPowerBlock with
    | some power =>
      (b.straws U Su Sm maxRange).flatMap fun first =>
        (U.constMonads.filter fun m => power.Allows maxRange first.last m).flatMap fun m =>
          prependToAll first (nextButOne.straws U Su m maxRange)
    | none =>
      (b.straws U Su Sm maxRange).flatMap fun first =>
        prependToAll first ((BlockString2.sequence node' next nextButOne).straws U Su
          (first.last + 1) maxRange)

noncomputable def BlockString.straws : BlockString C → SetOfMonads → SetOfMonads → Int → Int →
    List Straw
  | .blockString2 b, U, Su, Sm, maxRange => b.straws U Su Sm maxRange
  | .or b rest, U, Su, Sm, maxRange =>
    b.straws U Su Sm maxRange ++ rest.straws U Su Sm maxRange

/-- For each object block of an unordered group, its answers at any monad. -/
noncomputable def ObjectBlockString.strawLists : ObjectBlockString C → SetOfMonads → SetOfMonads →
    List (List Straw)
  | .objectBlock b, U, Su => [U.constMonads.flatMap fun m => b.straws U Su m]
  | .append bs b, U, Su => bs.strawLists U Su ++ [U.constMonads.flatMap fun m => b.straws U Su m]

/-- **The answer between brackets**: what is to be retrieved of the straws at any monad, if there
are some; of an unordered group, if each of its blocks has one. -/
noncomputable def Blocks.sheaf : Blocks C → SetOfMonads → SetOfMonads → Int → Sheaf
  | .blockString _ b, U, Su, maxRange =>
    if (U.constMonads.flatMap fun m => b.straws U Su m maxRange) = [] then .fail
    else .plist (ListOfStraws.filtered (U.constMonads.flatMap fun m => b.straws U Su m maxRange))
  | .unorderedGroup b, U, Su, _ =>
    if [] ∈ b.strawLists U Su then .fail else .plist (b.strawLists U Su).flatten

end

end Meaning

end Emdros
