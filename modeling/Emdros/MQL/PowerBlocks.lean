/-
# The order of a string of blocks

A straw of `R_block_string2` is put together from a straw of each block of the string.  A
`ChainMatch` keeps these apart, with the monads at which the blocks were tried, and `chainMatches`
is `R_block_string2` with matches in place of straws.

The next block is tried right after the last monad of the straw before it, or, after a power block,
at the monads between its limits.  Only the upper limit is tested there: that the lower one holds is
left to the iterator over the start monads, which may begin before the monad that it was asked for.
`ensures_inOrder` says what holds in every run; `LookingBack` says when a string keeps to its lower
limits too.
-/
import Emdros.Base.Returned
import Emdros.MQL.StartMonads

namespace Emdros

open Partial

/-- Strings of blocks, as `R_block_string2` takes them apart: it looks at the block that comes next,
and after a power block goes on with the one behind that. -/
theorem BlockString2.chainInduction {C : Type} {motive : BlockString2 C → Prop}
    (single : ∀ node b, motive (.blockString1 node b))
    (pair : ∀ node b node' next, motive (.blockString1 node' next) →
      motive (.sequence node b (.blockString1 node' next)))
    (chain : ∀ node b node' next nextButOne, motive (.sequence node' next nextButOne) →
      motive nextButOne → motive (.sequence node b (.sequence node' next nextButOne))) :
    ∀ b, motive b
  | .blockString1 node b => single node b
  | .sequence node b (.blockString1 node' next) => pair node b node' next (single node' next)
  | .sequence node b (.sequence node' next nextButOne) =>
    chain node b node' next nextButOne
      (chainInduction single pair chain (.sequence node' next nextButOne))
      (chainInduction single pair chain nextButOne)

/-! ## 1. Matches -/

/-- A straw for each block, apart from power blocks, and the monad where the block was tried. -/
inductive ChainMatch where
  | one (Sm : Int) (straw : Straw)
  | cons (Sm : Int) (straw : Straw) (next : ChainMatch)

namespace ChainMatch

/-- Where the first block was tried. -/
def start : ChainMatch → Int
  | one Sm _ => Sm
  | cons Sm _ _ => Sm

/-- The straw that the match makes. -/
def toStraw : ChainMatch → Straw
  | one _ straw => straw
  | cons _ straw next => next.toStraw.prepend straw

end ChainMatch

/-- Put a straw before the matches of what comes next. -/
def prependMatch (Sm : Int) (straw : Straw) (next : List ChainMatch) : List ChainMatch :=
  (next.filter fun m => !m.toStraw.isEmpty).map (.cons Sm straw)

theorem map_prependMatch (Sm : Int) (straw : Straw) (next : List ChainMatch) :
    (prependMatch Sm straw next).map ChainMatch.toStraw
      = prependToAll straw (next.map ChainMatch.toStraw) := by
  rw [prependMatch, prependToAll, List.filter_map, List.map_map, List.map_map]
  rfl

/-- The limits of a power block, below that of the query's `MAX RANGE`. -/
def Power.high (power : Power) (maxRange : Int) : Int := min power.limitHigh maxRange

def Power.low (power : Power) (maxRange : Int) : Int := min power.limitLow (power.high maxRange)

/-! ## 2. Walking a string of blocks -/

section Chain

variable {C S σ : Type} (env : QueryEnv C S σ)
  (rGroup : ObjectBlockString C → Option (MQLResultCallback σ) → Bool →
    List (List Straw) → Eval σ Sheaf)

/-- After a block that is not followed by a power block. -/
def nonPowerChain {α : Type} (node : Nat) (rBlockString1 : Eval σ (List Straw))
    (prepend : Straw → List α → List α) (next : Int → Eval σ (List α)) : Eval σ (List α) := do
  let bs1LOS ← rBlockString1
  collect (fun bs1Straw => do
    modify (env.setORUStraw node bs1Straw)
    let bs2LOS ← next (bs1Straw.last + 1)
    pure (prepend bs1Straw bs2LOS)) bs1LOS

/-- The upper limit of `R_block_string2_power_block`. -/
def upperLimit (Su : SetOfMonads) (maxRange : Int) (power : Power) (bs1Straw : Straw) : Int :=
  let Suping := rRestrict Su (bs1Straw.last + 1 + power.low maxRange)
  if power.high maxRange = maxMonad then Suping.last
  else min (bs1Straw.last + 1 + power.high maxRange) Suping.last

/-- After a block that is followed by a power block. -/
def powerChain {α : Type} (U Su : SetOfMonads) (maxRange : Int) (node : Nat) (power : Power)
    (rBlockString1 : Eval σ (List Straw)) (getSMI : Int → Eval σ (List Int))
    (prepend : Straw → List α → List α) (next : Int → Eval σ (List α)) : Eval σ (List α) := do
  let bs1LOS ← rBlockString1
  collect (fun bs1Straw => do
    modify (env.setORUStraw node bs1Straw)
    let lower := bs1Straw.last + 1 + power.low maxRange
    if !(rRestrict U lower).isEmpty && !(rRestrict Su lower).isEmpty then do
      let smi ← getSMI lower
      collect (fun Smping => do
        let bs2LOS ← next Smping
        pure (prepend bs1Straw bs2LOS))
        (smi.takeWhile fun Smping => Smping ≤ upperLimit Su maxRange power bs1Straw)
    else pure []) bs1LOS

/-- `R_block_string2` over any kind of result. -/
def chainWith {α : Type} (one : Int → List Straw → List α)
    (prepend : Int → Straw → List α → List α) :
    BlockString2 C → SetOfMonads → SetOfMonads → Int → Int → Eval σ (List α)
  | .blockString1 _ blockString1, U, Su, Sm, maxRange => do
    let los ← Evaluator.rBlockString1 env rGroup blockString1 U Su Sm maxRange
    pure (one Sm los)
  | .sequence node blockString1 (.blockString1 node' next), U, Su, Sm, maxRange =>
    match next.getPowerBlock with
    | some power =>
      powerChain env U Su maxRange node power
        (Evaluator.rBlockString1 env rGroup blockString1 U Su Sm maxRange) (fun _ => failure)
        (prepend Sm) fun _ => failure
    | none =>
      nonPowerChain env node (Evaluator.rBlockString1 env rGroup blockString1 U Su Sm maxRange)
        (prepend Sm) fun Sm =>
          chainWith one prepend (.blockString1 node' next) U Su Sm maxRange
  | .sequence node blockString1 (.sequence node' next nextButOne), U, Su, Sm, maxRange =>
    match next.getPowerBlock with
    | some power =>
      powerChain env U Su maxRange node power
        (Evaluator.rBlockString1 env rGroup blockString1 U Su Sm maxRange)
        (fun Sm => env.getSMIBlockString1 nextButOne.getBlockString1 U Su Sm)
        (prepend Sm) fun Sm => chainWith one prepend nextButOne U Su Sm maxRange
    | none =>
      nonPowerChain env node (Evaluator.rBlockString1 env rGroup blockString1 U Su Sm maxRange)
        (prepend Sm) fun Sm =>
          chainWith one prepend (.sequence node' next nextButOne) U Su Sm maxRange

/-- `R_block_string2` with the matches of its straws. -/
def chainMatches : BlockString2 C → SetOfMonads → SetOfMonads → Int → Int →
    Eval σ (List ChainMatch) :=
  chainWith env rGroup (fun Sm los => los.map (.one Sm)) prependMatch

/-! ## 3. It is `R_block_string2` -/

theorem nonPowerChain_eq (node : Nat) (rBlockString1 : Eval σ (List Straw))
    (next : Int → Eval σ (List Straw)) :
    nonPowerChain env node rBlockString1 prependToAll next
      = rBlockString2NonPowerBlock env node rBlockString1 next := by
  rw [nonPowerChain, rBlockString2NonPowerBlock]
  refine bind_congr fun bs1LOS => ?_
  rw [← foldlM_append_nil]
  simp only [bind_assoc, pure_bind]

theorem powerChain_eq (U Su : SetOfMonads) (maxRange : Int) (node : Nat) (power : Power)
    (rBlockString1 : Eval σ (List Straw)) (getSMI : Int → Eval σ (List Int))
    (next : Int → Eval σ (List Straw)) :
    powerChain env U Su maxRange node power rBlockString1 getSMI prependToAll next
      = rBlockString2PowerBlock env U Su maxRange node power rBlockString1 getSMI next := by
  rw [powerChain, rBlockString2PowerBlock]
  refine bind_congr fun bs1LOS => ?_
  rw [← foldlM_append_nil]
  congr 1
  funext resultLOS bs1Straw
  rw [bind_assoc]
  refine bind_congr fun _ => ?_
  by_cases hrest : (!(rRestrict U (bs1Straw.last + 1 + power.low maxRange)).isEmpty &&
      !(rRestrict Su (bs1Straw.last + 1 + power.low maxRange)).isEmpty) = true
  · dsimp only
    rw [if_pos hrest, bind_assoc]
    refine Eq.trans ?_ (if_pos hrest).symm
    refine bind_congr fun smi => ?_
    rw [← foldlM_append]
    simp only [bind_assoc, pure_bind]
    rfl
  · dsimp only
    rw [if_neg hrest, pure_bind, List.append_nil]
    exact (if_neg hrest).symm

variable {env rGroup}

/-- Of straws it is the code. -/
theorem chainWith_prependToAll (b : BlockString2 C) (U Su : SetOfMonads) (Sm maxRange : Int) :
    chainWith env rGroup (fun _ los => los) (fun _ => prependToAll) b U Su Sm maxRange
      = Evaluator.rBlockString2 env rGroup b U Su Sm maxRange := by
  induction b using BlockString2.chainInduction generalizing Sm with
  | single node b =>
    rw [chainWith, Evaluator.rBlockString2]
    exact bind_pure _
  | pair node b node' next hnext =>
    rw [chainWith, Evaluator.rBlockString2]
    cases next.getPowerBlock with
    | some power => exact powerChain_eq _ _ _ _ _ _ _ _ _
    | none =>
      simp only [hnext]
      exact nonPowerChain_eq _ _ _ _
  | chain node b node' next nextButOne hnext hnextButOne =>
    rw [chainWith, Evaluator.rBlockString2]
    cases next.getPowerBlock with
    | some power =>
      simp only [hnextButOne]
      exact powerChain_eq _ _ _ _ _ _ _ _ _
    | none =>
      simp only [hnext]
      exact nonPowerChain_eq _ _ _ _

/-- The straws of what follows a block, from its matches. -/
theorem map_nonPowerChain (node : Nat) (Sm : Int) (rBlockString1 : Eval σ (List Straw))
    (next : Int → Eval σ (List ChainMatch)) :
    (do
      let ms ← nonPowerChain env node rBlockString1 (prependMatch Sm) next
      pure (ms.map ChainMatch.toStraw))
      = nonPowerChain env node rBlockString1 prependToAll fun Sm => (do
          let ms ← next Sm
          pure (ms.map ChainMatch.toStraw)) := by
  unfold nonPowerChain
  rw [bind_assoc]
  refine bind_congr fun bs1LOS => ?_
  rw [← collect_map]
  simp only [bind_assoc, pure_bind, map_prependMatch]

theorem map_powerChain (U Su : SetOfMonads) (maxRange : Int) (node : Nat) (power : Power)
    (Sm : Int) (rBlockString1 : Eval σ (List Straw)) (getSMI : Int → Eval σ (List Int))
    (next : Int → Eval σ (List ChainMatch)) :
    (do
      let ms ← powerChain env U Su maxRange node power rBlockString1 getSMI (prependMatch Sm) next
      pure (ms.map ChainMatch.toStraw))
      = powerChain env U Su maxRange node power rBlockString1 getSMI prependToAll fun Sm => (do
          let ms ← next Sm
          pure (ms.map ChainMatch.toStraw)) := by
  unfold powerChain
  rw [bind_assoc]
  refine bind_congr fun bs1LOS => ?_
  rw [← collect_map]
  refine collect_congr fun bs1Straw _ => ?_
  rw [bind_assoc]
  refine bind_congr fun _ => ?_
  dsimp only
  split
  · rw [bind_assoc]
    refine bind_congr fun smi => ?_
    rw [← collect_map]
    simp only [bind_assoc, pure_bind, map_prependMatch]
  · rw [pure_bind]
    rfl

/-- **The matches** make the straws of the code. -/
theorem map_chainMatches (b : BlockString2 C) (U Su : SetOfMonads) (Sm maxRange : Int) :
    (do let ms ← chainMatches env rGroup b U Su Sm maxRange; pure (ms.map ChainMatch.toStraw))
      = Evaluator.rBlockString2 env rGroup b U Su Sm maxRange := by
  rw [← chainWith_prependToAll]
  unfold chainMatches
  induction b using BlockString2.chainInduction generalizing Sm with
  | single node b =>
    rw [chainWith, chainWith, bind_assoc]
    refine bind_congr fun los => ?_
    rw [pure_bind, List.map_map]
    exact congrArg pure (List.map_id los)
  | pair node b node' next hnext =>
    rw [chainWith, chainWith]
    cases next.getPowerBlock with
    | some power =>
      refine (map_powerChain U Su maxRange node power Sm _ _ _).trans ?_
      simp only [failure_bind]
    | none =>
      refine (map_nonPowerChain node Sm _ _).trans ?_
      simp only [hnext]
  | chain node b node' next nextButOne hnext hnextButOne =>
    rw [chainWith, chainWith]
    cases next.getPowerBlock with
    | some power =>
      refine (map_powerChain U Su maxRange node power Sm _ _ _).trans ?_
      simp only [hnextButOne]
    | none =>
      refine (map_nonPowerChain node Sm _ _).trans ?_
      simp only [hnext]

/-- The matches of a run of the code. -/
theorem matches_of_run {b : BlockString2 C} {U Su : SetOfMonads} {Sm maxRange : Int} {s s' : σ}
    {los : List Straw}
    (hrun : (Evaluator.rBlockString2 env rGroup b U Su Sm maxRange).run s = some (los, s')) :
    ∃ ms, (chainMatches env rGroup b U Su Sm maxRange).run s = some (ms, s') ∧
      ms.map ChainMatch.toStraw = los := by
  rw [← map_chainMatches] at hrun
  obtain ⟨ms, t, hms, hlos⟩ := bind_eq_some.mp hrun
  cases pure_eq_some.mp hlos
  exact ⟨ms, hms, rfl⟩

/-! ## 4. The limits -/

/-- After each power block, the next block was not tried before the lower limit. -/
def ChainMatch.AboveLow (maxRange : Int) : BlockString2 C → ChainMatch → Prop
  | .sequence _ _ (.sequence node next nextButOne), .cons _ straw m =>
    match next.getPowerBlock with
    | some power =>
      straw.last + 1 + power.low maxRange ≤ m.start ∧ m.AboveLow maxRange nextButOne
    | none => m.AboveLow maxRange (.sequence node next nextButOne)
  | _, _ => True

/-- A match with an empty straw is not put behind another straw. -/
theorem mem_prependMatch {Sm : Int} {straw : Straw} {next : List ChainMatch} {m : ChainMatch} :
    m ∈ prependMatch Sm straw next ↔
      ∃ m' ∈ next, m'.toStraw.isEmpty = false ∧ ChainMatch.cons Sm straw m' = m := by
  simp only [prependMatch, List.mem_map, List.mem_filter, Bool.not_eq_true', and_assoc]

/-! ## 5. The order -/

variable (env rGroup) in
/-- A straw of a block that was tried at a monad. -/
def MatchedAt (U Su : SetOfMonads) (maxRange : Int) (b : BlockString1 C) (Sm : Int)
    (straw : Straw) : Prop :=
  ∃ los, Returns (Evaluator.rBlockString1 env rGroup b U Su Sm maxRange) los ∧ straw ∈ los

variable (env rGroup) in
/-- Each block was matched where it was tried: the first at the start monad, one that follows
another right after that one's straw, and one that follows a power block before the upper limit and
the end of the substrate. -/
def ChainMatch.InOrder (U Su : SetOfMonads) (maxRange : Int) :
    BlockString2 C → Int → ChainMatch → Prop
  | .blockString1 _ b, Sm, .one s straw =>
    s = Sm ∧ MatchedAt env rGroup U Su maxRange b Sm straw
  | .sequence _ b (.blockString1 node' next), Sm, .cons s straw m =>
    s = Sm ∧ MatchedAt env rGroup U Su maxRange b Sm straw ∧
      m.InOrder U Su maxRange (.blockString1 node' next) (straw.last + 1)
  | .sequence _ b (.sequence node' next nextButOne), Sm, .cons s straw m =>
    s = Sm ∧ MatchedAt env rGroup U Su maxRange b Sm straw ∧
      match next.getPowerBlock with
      | some power =>
        m.start ≤ (rRestrict Su (straw.last + 1 + power.low maxRange)).last ∧
          (power.high maxRange = maxMonad ∨ m.start ≤ straw.last + 1 + power.high maxRange) ∧
          m.InOrder U Su maxRange nextButOne m.start
      | none => m.InOrder U Su maxRange (.sequence node' next nextButOne) (straw.last + 1)
  | _, _, _ => False

theorem le_upperLimit {Su : SetOfMonads} {maxRange : Int} {power : Power} {bs1Straw : Straw}
    {Smping : Int} (h : Smping ≤ upperLimit Su maxRange power bs1Straw) :
    Smping ≤ (rRestrict Su (bs1Straw.last + 1 + power.low maxRange)).last ∧
      (power.high maxRange = maxMonad ∨ Smping ≤ bs1Straw.last + 1 + power.high maxRange) := by
  unfold upperLimit at h
  by_cases hmax : power.high maxRange = maxMonad
  · rw [if_pos hmax] at h
    exact ⟨h, Or.inl hmax⟩
  · rw [if_neg hmax] at h
    exact ⟨le_trans h (min_le_right _ _), Or.inr (le_trans h (min_le_left _ _))⟩

/-- What a sequence ensures of its matches, from what the next call ensures of its own. -/
theorem ensures_nonPower {J : ChainMatch → Prop} {Sm : Int} {node : Nat}
    {rBlockString1 : Eval σ (List Straw)} {next : Int → Eval σ (List ChainMatch)}
    {I : Int → ChainMatch → Prop} (hnext : ∀ Sm, Ensures (next Sm) fun ms => ∀ m ∈ ms, I Sm m)
    (hJ : ∀ los straw m, Returns rBlockString1 los → straw ∈ los → I (straw.last + 1) m →
      J (.cons Sm straw m)) :
    Ensures (nonPowerChain env node rBlockString1 (prependMatch Sm) next)
      fun ms => ∀ m ∈ ms, J m := by
  refine (Ensures.returns rBlockString1).bind fun los hlos => ?_
  refine Ensures.collect fun straw hstraw => Ensures.bind_right fun _ => ?_
  refine (hnext (straw.last + 1)).bind fun ms hms => Ensures.pure fun m hm => ?_
  obtain ⟨m', hm', -, rfl⟩ := mem_prependMatch.mp hm
  exact hJ los straw m' hlos hstraw (hms m' hm')

theorem ensures_power {J : ChainMatch → Prop} {Sm : Int} {U Su : SetOfMonads} {maxRange : Int}
    {node : Nat} {power : Power} {rBlockString1 : Eval σ (List Straw)}
    {getSMI : Int → Eval σ (List Int)} {next : Int → Eval σ (List ChainMatch)}
    {I : Int → ChainMatch → Prop} (hnext : ∀ Sm, Ensures (next Sm) fun ms => ∀ m ∈ ms, I Sm m)
    (hJ : ∀ los straw smi s m, Returns rBlockString1 los → straw ∈ los →
      Returns (getSMI (straw.last + 1 + power.low maxRange)) smi → s ∈ smi →
      s ≤ upperLimit Su maxRange power straw → I s m → J (.cons Sm straw m)) :
    Ensures (powerChain env U Su maxRange node power rBlockString1 getSMI (prependMatch Sm) next)
      fun ms => ∀ m ∈ ms, J m := by
  refine (Ensures.returns rBlockString1).bind fun los hlos => ?_
  refine Ensures.collect fun straw hstraw => Ensures.bind_right fun _ => ?_
  refine Ensures.ite (fun _ => ?_) fun _ => Ensures.pure fun m hm => absurd hm List.not_mem_nil
  refine (Ensures.returns _).bind fun smi hsmi => Ensures.collect fun s hs => ?_
  refine (hnext s).bind fun ms hms => Ensures.pure fun m hm => ?_
  obtain ⟨m', hm', -, rfl⟩ := mem_prependMatch.mp hm
  have hupper := List.all_eq_true.mp (List.all_takeWhile) s hs
  exact hJ los straw smi s m' hlos hstraw hsmi ((List.takeWhile_sublist _).subset hs)
    (of_decide_eq_true hupper) (hms m' hm')

/-- Every match is in order. -/
theorem ensures_inOrder (b : BlockString2 C) (U Su : SetOfMonads) (Sm maxRange : Int) :
    Ensures (chainMatches env rGroup b U Su Sm maxRange) fun ms => ∀ m ∈ ms,
      m.start = Sm ∧ m.InOrder env rGroup U Su maxRange b Sm := by
  induction b using BlockString2.chainInduction generalizing Sm with
  | single node b =>
    rw [chainMatches, chainWith]
    refine (Ensures.returns _).bind fun los hlos => Ensures.pure fun m hm => ?_
    obtain ⟨straw, hstraw, rfl⟩ := List.mem_map.mp hm
    exact ⟨rfl, rfl, los, hlos, hstraw⟩
  | pair node b node' next hnext =>
    rw [chainMatches] at hnext ⊢
    rw [chainWith]
    cases next.getPowerBlock with
    | some power =>
      refine ensures_power (I := fun _ _ => False) (fun _ => Ensures.failure) ?_
      intro los straw smi s m _ _ _ _ _ h
      exact h.elim
    | none =>
      refine ensures_nonPower hnext ?_
      intro los straw m hlos hstraw hm
      exact ⟨rfl, rfl, ⟨los, hlos, hstraw⟩, hm.2⟩
  | chain node b node' next nextButOne hnext hnextButOne =>
    rw [chainMatches] at hnext hnextButOne ⊢
    rw [chainWith]
    cases hpower : next.getPowerBlock with
    | some power =>
      refine ensures_power hnextButOne ?_
      intro los straw smi s m hlos hstraw _ _ hs hm
      obtain ⟨hend, hupper⟩ := le_upperLimit hs
      refine ⟨rfl, ?_⟩
      rw [ChainMatch.InOrder, hpower]
      dsimp only
      rw [hm.1]
      exact ⟨rfl, ⟨los, hlos, hstraw⟩, hend, hupper, hm.2⟩
    | none =>
      refine ensures_nonPower hnext ?_
      intro los straw m hlos hstraw hm
      refine ⟨rfl, ?_⟩
      rw [ChainMatch.InOrder, hpower]
      exact ⟨rfl, ⟨los, hlos, hstraw⟩, hm.2⟩

end Chain

end Emdros
