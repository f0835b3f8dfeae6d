/-
# `R_blocks`, apart from the recursion (`mql_R.cpp`)

`R_blocks` asks for the straws of its block string at one start monad after the other and puts
them into a sheaf.  It is modelled here over any `R_block_string`; `Retrieval` closes the loop.

The lists of straws are handed over by pointer, and `appendAndSubsumeWhileFiltering` and
`appendAndSubsumeWhileCounting` delete the list that they take from.  So the lists of
`R_blocks` live in a heap, where the use of a deleted list fails.

At each start monad there is a batch of straws.  With a range it is first filtered into a list of
its own, and counting decides whether the batch is passed over, is behind the range, or is stored
in whole or in part (`rangeCases`).  The cases have the pointers of the source in them; `UsingRange`
says what comes of that.  Without a range the batch is stored as it is.  A callback sees its straws
and may stop the loop; otherwise they are filtered and appended to the result.

The state of the evaluator, `σ`, is that of the callback and of what the blocks call.
-/
import Emdros.Base.Heap
import Emdros.MQL.Sheaf

namespace Emdros

open Partial

/-- A computation of the query engine.  `σ` is what the execution environment holds besides,
and failure is an exception, a failed assertion or an undefined access. -/
abbrev Eval (σ : Type) (α : Type) := StateT σ Option α

/-- `MQLResultCallback`.  `startSheaf` returns whether to go on and whether to store the sheaf,
`nextLOS` whether to go on. -/
structure MQLResultCallback (σ : Type) where
  startSheaf : σ → (Bool × Bool) × σ
  nextLOS : List Straw → σ → Bool × σ
  endSheaf : Bool → σ → σ

/-- `UsingRange`. -/
structure UsingRange where
  start : Int
  end_ : Int
  deriving DecidableEq, Repr

/-- `UsingRange::weed`. -/
def UsingRange.weed (r : UsingRange) : Bool :=
  !(r.start < 0 ∨ r.end_ < 0) && !(r.start > r.end_)

/-! ## 1. Lists of straws on the heap -/

/-- `this->appendAndSubsumeWhileFiltering(pOther)`: the number of straws added. -/
def appendAndSubsumeWhileFiltering (this pOther : Nat) : HeapM (List Straw) Int := do
  let other ← Heap.read pOther
  let mine ← Heap.read this
  Heap.write this (mine ++ ListOfStraws.filtered other)
  Heap.delete pOther
  pure (ListOfStraws.filtered other).length

/-- `this->appendAndSubsumeWhileCounting(pOther, start_index, count)`. -/
def appendAndSubsumeWhileCounting (this pOther : Nat) (startIndex count : Int) :
    HeapM (List Straw) Int := do
  let other ← Heap.read pOther
  let mine ← Heap.read this
  let straws := ListOfStraws.counted startIndex count 0 0 other
  Heap.write this (mine ++ straws)
  Heap.delete pOther
  pure straws.length

/-! ## 2. The range -/

/-- How a round of the loop goes on: with the next start monad, with none, or by storing
`pIntermediateLOS` first; `count` is the new running count. -/
inductive RangeStep where
  | continue_ (count : Int)
  | break_ (count : Int)
  | store (count : Int) (pIntermediateLOS : Nat)

/-- The cases of `R_blocks` for a batch of `LOS_size` straws, numbered as in the source.  When
they begin, `pLOS` has been consumed by `pIntermediateLOS`. -/
def rangeCases (pUR : UsingRange) (count : Int) (pLOS pIntermediateLOS : Nat) (losSize : Int) :
    HeapM (List Straw) RangeStep :=
  if losSize = 0 then do
    Heap.delete pIntermediateLOS
    pure (.continue_ count)
  else if count > pUR.end_ then do                                               -- 5
    Heap.delete pIntermediateLOS
    pure (.break_ (count + losSize))
  else if count + losSize < pUR.start then do                                    -- 1
    Heap.delete pIntermediateLOS
    pure (.continue_ (count + losSize))
  else if count ≥ pUR.start ∧ count + losSize ≤ pUR.end_ then                     -- 3
    if count ≤ pUR.end_ then pure (.store (count + losSize) pLOS) else failure
  else if count < pUR.start ∧ count + losSize ≤ pUR.end_ then do                  -- 2
    let pIntermediateLOS ← Heap.new []
    let mystart := pUR.start - count
    let _ ← appendAndSubsumeWhileCounting pIntermediateLOS pLOS mystart (losSize - mystart)
    Heap.delete pLOS
    pure (.store (count + losSize) pIntermediateLOS)
  else if count < pUR.start ∧ count + losSize > pUR.end_ then do                  -- 6
    let pIntermediateLOS2 ← Heap.new []
    let mystart := pUR.start - count
    let _ ← appendAndSubsumeWhileCounting pIntermediateLOS2 pIntermediateLOS mystart
      (pUR.end_ - pUR.start + 1)
    Heap.delete pLOS
    pure (.store (count + losSize) pIntermediateLOS2)
  else failure

/-- A non-empty batch: with a range, filter it to know its size, and look where it stands. -/
def rangeBatch (pUR : Option UsingRange) (count : Int) (pLOS : Nat) :
    HeapM (List Straw) RangeStep :=
  match pUR with
  | none => pure (.store count pLOS)
  | some pUR => do
    let pIntermediateLOS ← Heap.new []
    let losSize ← appendAndSubsumeWhileFiltering pIntermediateLOS pLOS
    rangeCases pUR count pLOS pIntermediateLOS losSize

/-! ## 3. The loop -/

section Loop

variable {σ : Type}

/-- What `R_blocks` does with `pIntermediateLOS`: the heap, and `m_bContinueExecution`. -/
def storeLOS (pCallback : Option (MQLResultCallback σ)) (bStoreSheafInMemory : Bool)
    (pResultLOS pIntermediateLOS : Nat) (heap : Heap (List Straw)) :
    Eval σ (Heap (List Straw) × Bool) :=
  match pCallback with
  | some callback => do
    let los ← ofOption ((Heap.read pIntermediateLOS).run heap)
    let bContinue ← fun s => some (callback.nextLOS los.1 s)
    if bStoreSheafInMemory then do
      let r ← ofOption ((appendAndSubsumeWhileFiltering pResultLOS pIntermediateLOS).run heap)
      pure (r.2, bContinue)
    else do
      let r ← ofOption ((Heap.delete pIntermediateLOS).run heap)
      pure (r.2, bContinue)
  | none => do
    let r ← ofOption ((appendAndSubsumeWhileFiltering pResultLOS pIntermediateLOS).run heap)
    pure (r.2, true)

/-- The variables of the loop. -/
structure BlocksLoop where
  heap : Heap (List Straw)
  count : Int
  bSuccess : Bool
  bContinueExecution : Bool

/-- The loop over the start monads. -/
def blocksLoop (pCallback : Option (MQLResultCallback σ)) (bStoreSheafInMemory : Bool)
    (pUR : Option UsingRange) (pResultLOS : Nat) (rBlockString : Int → Eval σ (List Straw)) :
    List Int → BlocksLoop → Eval σ BlocksLoop
  | [], v => pure v
  | Sm :: smi, v =>
    if v.bContinueExecution then do
      let los ← rBlockString Sm
      if los.isEmpty then
        blocksLoop pCallback bStoreSheafInMemory pUR pResultLOS rBlockString smi v
      else do
        let pLOS := v.heap.next
        let (step, heap) ← ofOption ((rangeBatch pUR v.count pLOS).run (v.heap.alloc los))
        match step with
        | .continue_ count =>
          blocksLoop pCallback bStoreSheafInMemory pUR pResultLOS rBlockString smi
            { v with heap, count, bSuccess := true }
        | .break_ count => pure { v with heap, count, bSuccess := true }
        | .store count pIntermediateLOS => do
          let (heap, bContinueExecution) ←
            storeLOS pCallback bStoreSheafInMemory pResultLOS pIntermediateLOS heap
          blocksLoop pCallback bStoreSheafInMemory pUR pResultLOS rBlockString smi
            { heap, count, bSuccess := true, bContinueExecution }
    else pure v

/-- The end of `R_blocks`: with a callback the sheaf is empty, or failed. -/
def finishBlocks (pCallback : Option (MQLResultCallback σ)) (bContinueExecution bSuccess : Bool)
    (resultLOS : List Straw) : Eval σ Sheaf :=
  match pCallback with
  | some callback =>
    if !bContinueExecution then fun s => some (.fail, callback.endSheaf true s)
    else if bSuccess then fun s => some (.plist [], callback.endSheaf false s)
    else fun s => some (.fail, callback.endSheaf true s)
  | none =>
    if !bContinueExecution then pure .fail
    else if bSuccess then pure (.plist resultLOS)
    else pure .fail

/-- `R_blocks` on a block string from the choice of the start monads on. -/
def rBlockStringFrom (pCallback : Option (MQLResultCallback σ)) (bContinueExecution : Bool)
    (bStoreSheafInMemory : Bool) (pUR : Option UsingRange) (getSMI : Eval σ (List Int))
    (rBlockString : Int → Eval σ (List Straw)) : Eval σ Sheaf := do
  let heap : Heap (List Straw) := Heap.empty
  let pResultLOS := heap.next
  let smi ← getSMI
  let v ← blocksLoop pCallback bStoreSheafInMemory pUR pResultLOS rBlockString smi
    { heap := heap.alloc [], count := 0, bSuccess := false, bContinueExecution }
  let resultLOS ← ofOption ((Heap.read pResultLOS).run v.heap)
  finishBlocks pCallback v.bContinueExecution v.bSuccess resultLOS.1

/-- `R_blocks` on a block string.  There is a callback only if this is the topograph. -/
def rBlocksOfBlockString (pCallback : Option (MQLResultCallback σ)) (bContinueExecution : Bool)
    (pUR : Option UsingRange) (getSMI : Eval σ (List Int))
    (rBlockString : Int → Eval σ (List Straw)) : Eval σ Sheaf :=
  match pCallback with
  | some callback => do
    let (bContinue, bStoreSheafInMemory) ← fun s => some (callback.startSheaf s)
    if !bContinue then fun s => some (.fail, callback.endSheaf true s)
    else rBlockStringFrom pCallback bContinue bStoreSheafInMemory pUR getSMI rBlockString
  | none => rBlockStringFrom pCallback bContinueExecution true pUR getSMI rBlockString

/-- `R_blocks` on an unordered group, from the lists of its object blocks on; they come in
textual order. -/
def rBlocksOfUnorderedGroup (pCallback : Option (MQLResultCallback σ))
    (bContinueExecution : Bool) (losList : List (List Straw)) : Eval σ Sheaf :=
  let bHasNoEmptyLOS := losList.all fun los => !los.isEmpty
  finishBlocks pCallback bContinueExecution bHasNoEmptyLOS losList.flatten

end Loop

end Emdros
