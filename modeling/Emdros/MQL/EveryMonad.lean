/-
# No start is missed (`mql_R.cpp`)

The plain way to answer a query is to try every monad of the universe wherever a block string may
start (`QueryEnv.withEveryMonad`).  Here it is shown that the evaluator with the start monads of
`getSMI` is the same computation on a whole query, with its inner blocks, exceptions and object
references (`rBlocks_everyMonad`).

By `SearchedStarts` the two lists of start monads differ in monads only where a string does nothing.
So the loops over them do the same (section 1); the rest is the recursion of the evaluator, where
inner blocks have the monads of an object or a gap as their substrate.
-/
import Emdros.MQL.SearchedStarts

namespace Emdros

open Partial SpanList IntGaps

/-! ## 1. What the loops do on two lists of start monads -/

section Loops

variable {C S σ : Type} {l l' : List Int} {R : Int → Eval σ (List Straw)}

theorem ofOption_some {α : Type} (a : α) : (ofOption (some a) : Eval σ α) = pure a := rfl

/-- The loop of `R_blocks` ends where the callback said so. -/
theorem blocksLoop_stopped (pCallback : Option (MQLResultCallback σ)) (bStoreSheafInMemory : Bool)
    (pUR : Option UsingRange) (pResultLOS : Nat) {v : BlocksLoop}
    (hv : v.bContinueExecution = false) : ∀ l : List Int,
      blocksLoop pCallback bStoreSheafInMemory pUR pResultLOS R l v = pure v
  | [] => rfl
  | Sm :: smi => by
    rw [blocksLoop, if_neg (by rw [hv]; exact Bool.false_ne_true)]

theorem blocksLoop_filter (pCallback : Option (MQLResultCallback σ)) (bStoreSheafInMemory : Bool)
    (pUR : Option UsingRange) (pResultLOS : Nat) [DecidablePred fun m => R m = pure []] :
    ∀ (l : List Int) (v : BlocksLoop),
      blocksLoop pCallback bStoreSheafInMemory pUR pResultLOS R l v
        = blocksLoop pCallback bStoreSheafInMemory pUR pResultLOS R
            (l.filter fun m => ¬ R m = pure []) v
  | [], _ => rfl
  | Sm :: smi, v => by
    by_cases hv : v.bContinueExecution = true
    · by_cases hidle : R Sm = pure []
      · rw [List.filter_cons_of_neg (by simpa using hidle), blocksLoop, if_pos hv, hidle,
          pure_bind, if_pos List.isEmpty_nil]
        exact blocksLoop_filter pCallback bStoreSheafInMemory pUR pResultLOS smi v
      · rw [List.filter_cons_of_pos (by simpa using hidle), blocksLoop, blocksLoop]
        simp only [← blocksLoop_filter pCallback bStoreSheafInMemory pUR pResultLOS smi]
    · rw [Bool.not_eq_true] at hv
      rw [blocksLoop_stopped _ _ _ _ hv, blocksLoop_stopped _ _ _ _ hv]

theorem blocksLoop_eq (h : SameTries (fun m => R m = pure []) l l')
    (pCallback : Option (MQLResultCallback σ)) (bStoreSheafInMemory : Bool)
    (pUR : Option UsingRange) (pResultLOS : Nat) (v : BlocksLoop) :
    blocksLoop pCallback bStoreSheafInMemory pUR pResultLOS R l v
      = blocksLoop pCallback bStoreSheafInMemory pUR pResultLOS R l' v := by
  classical
  rw [blocksLoop_filter _ _ _ _ l, blocksLoop_filter _ _ _ _ l', h.filter_eq]

theorem rBlocksOfBlockString_eq (h : SameTries (fun m => R m = pure []) l l')
    (pCallback : Option (MQLResultCallback σ)) (bContinueExecution : Bool)
    (pUR : Option UsingRange) :
    rBlocksOfBlockString pCallback bContinueExecution pUR (pure l) R
      = rBlocksOfBlockString pCallback bContinueExecution pUR (pure l') R := by
  have hfrom : ∀ bContinueExecution bStoreSheafInMemory,
      rBlockStringFrom pCallback bContinueExecution bStoreSheafInMemory pUR (pure l) R
        = rBlockStringFrom pCallback bContinueExecution bStoreSheafInMemory pUR (pure l') R := by
    intro bContinueExecution bStoreSheafInMemory
    simp only [rBlockStringFrom, pure_bind, blocksLoop_eq h]
  unfold rBlocksOfBlockString
  cases pCallback with
  | none => exact hfrom _ _
  | some callback =>
    simp only [hfrom]

/-- The loop of `NOTEXIST` passes over a start monad where nothing is found. -/
theorem itWasThere_filter [DecidablePred fun m => R m = pure []] : ∀ l : List Int,
    itWasThere R l = itWasThere R (l.filter fun m => ¬ R m = pure [])
  | [] => rfl
  | Sm :: smi => by
    by_cases hidle : R Sm = pure []
    · rw [List.filter_cons_of_neg (by simpa using hidle), itWasThere, hidle, pure_bind]
      exact itWasThere_filter smi
    · rw [List.filter_cons_of_pos (by simpa using hidle), itWasThere, itWasThere]
      simp only [← itWasThere_filter smi]

theorem itWasThere_eq (h : SameTries (fun m => R m = pure []) l l') :
    itWasThere R l = itWasThere R l' := by
  classical
  rw [itWasThere_filter l, itWasThere_filter l', h.filter_eq]

/-- A start monad where nothing is found adds no straws. -/
theorem appends_nothing {m : Int} (hm : R m = pure []) (f : List Straw → List Straw)
    (hf : f [] = []) (resultLOS : List Straw) :
    (do let los ← R m; pure (resultLOS ++ f los)) = (pure resultLOS : Eval σ (List Straw)) := by
  rw [hm, pure_bind, hf, List.append_nil]

theorem objectBlockLOS_eq (h : SameTries (fun m => R m = pure []) l l')
    (bContinueExecution : Bool) :
    objectBlockLOS bContinueExecution (pure l) R
      = objectBlockLOS bContinueExecution (pure l') R := by
  rw [objectBlockLOS, objectBlockLOS, pure_bind, pure_bind]
  split
  · exact h.foldlM_eq (fun m hm b => appends_nothing hm id rfl b) []
  · rfl

/-- Behind a power block the start monads are asked for where universe and substrate go on. -/
theorem rBlockString2PowerBlock_eq {env : QueryEnv C S σ} {U Su : SetOfMonads}
    {getSMI getSMI' : Int → Eval σ (List Int)}
    (h : ∀ Sm, (rRestrict Su Sm).isEmpty = false → ∃ l l', getSMI Sm = pure l ∧
      getSMI' Sm = pure l' ∧ SameTries (fun m => R m = pure []) l l')
    (maxRange : Int) (node : Nat) (power : Power) (rBlockString1 : Eval σ (List Straw)) :
    rBlockString2PowerBlock env U Su maxRange node power rBlockString1 getSMI R
      = rBlockString2PowerBlock env U Su maxRange node power rBlockString1 getSMI' R := by
  unfold rBlockString2PowerBlock
  refine bind_congr fun bs1LOS => ?_
  refine congrArg (fun step => List.foldlM step [] bs1LOS) ?_
  funext resultLOS bs1Straw
  refine bind_congr fun _ => ?_
  dsimp only
  split
  · rename_i hcond
    obtain ⟨l, l', hl, hl', hsame⟩ := h _ (by simpa using (Bool.and_eq_true_iff.mp hcond).2)
    rw [hl, hl', pure_bind, pure_bind]
    refine (hsame.takeWhile _).foldlM_eq (fun m hm b => ?_) resultLOS
    exact appends_nothing hm (prependToAll bs1Straw) rfl b
  · rfl

end Loops

/-! ## 2. The two evaluators -/

section Evaluators

variable {C S σ : Type} {env : QueryEnv C S σ} {e : StartMonadEnv}
  {rGroup : ObjectBlockString C → Option (MQLResultCallback σ) → Bool →
    List (List Straw) → Eval σ Sheaf}
  {U Su : SetOfMonads} {Sm maxRange : Int}

theorem Iterates.exists_pure {getSMI : Option StartMonadIterator} {nothingAt : Int → Prop}
    {gaps : Bool} (h : Iterates getSMI nothingAt U Su Sm gaps) :
    ∃ l, (ofOption (getSMI.map StartMonadIterator.monads) : Eval σ (List Int)) = pure l ∧
      SameTries nothingAt l (everyMonad U Sm) := by
  obtain ⟨smi, rfl, hcovers, -⟩ := h
  exact ⟨smi.monads, rfl, hcovers.tries⟩

theorem searchable_getBlockString1 : ∀ {b : BlockString2 C}, b.Searchable e →
    b.getBlockString1.Searchable e
  | .blockString1 _ _, h => h
  | .sequence _ _ _, h => h.1

theorem nothingAt_of_getBlockString1 {m : Int} : ∀ {b : BlockString2 C},
    b.getBlockString1.NothingAt U Su m → b.NothingAt U Su m
  | .blockString1 _ _, h => h
  | .sequence _ _ _, h => h

theorem collect_congr {ι : Type} {x y : ι → Eval σ (List Straw)} : ∀ {l : List ι},
    (∀ i ∈ l, x i = y i) → collect x l = collect y l
  | [], _ => rfl
  | i :: l, h => by
    rw [collect, collect, h i List.mem_cons_self,
      collect_congr fun j hj => h j (List.mem_cons_of_mem i hj)]

/-- What is done with an object depends on its inner blocks within its own monads. -/
theorem rObjectBlockInst_congr {info : ObjectBlockInfo C} (hinst : ∀ o ∈ info.inst, o.IsIn e.allM1)
    {R R' : SetOfMonads → SetOfMonads → Eval σ (Option Sheaf)}
    (h : ∀ U Su, IsSubstrate e.allM1 U Su → R U Su = R' U Su) (noOptBlocks : Bool) :
    rObjectBlockInst (env.withStartMonads e) U Su Sm info noOptBlocks R
      = rObjectBlockInst env.withEveryMonad U Su Sm info noOptBlocks R' := by
  rw [rObjectBlockInst_eq, rObjectBlockInst_eq]
  refine collect_congr fun o ho => ?_
  have hin := hinst o (of_mem_objectsStarting ho).1
  have hinner : (ofOption (SetOfMonads.empty.add o.first o.last) >>= fun Uping => R Uping o.monads)
      = ofOption (SetOfMonads.empty.add o.first o.last) >>= fun Uping => R' Uping o.monads := by
    cases hadd : SetOfMonads.empty.add o.first o.last with
    | none => rfl
    | some Uping =>
      rw [ofOption_some, pure_bind, pure_bind]
      exact h Uping o.monads (hin.isSubstrate hadd)
  unfold objectStraws
  rw [hinner]
  rfl

theorem rGap_congr (hall : e.allM1.IsRange) (hSu : IsSubstrate e.allM1 U Su)
    {R R' : SetOfMonads → SetOfMonads → Eval σ (Option Sheaf)}
    (h : ∀ U Su, IsSubstrate e.allM1 U Su → R U Su = R' U Su) (retrieval : ERetrieval)
    (obb : ObjectBlockBase) (noOptBlocks emptyMo : Bool) :
    rGap Su Sm retrieval obb noOptBlocks R emptyMo
      = rGap Su Sm retrieval obb noOptBlocks R' emptyMo := by
  unfold rGap
  cases hgap : Su.gapExists Sm with
  | none => rfl
  | some gap =>
    rw [ofOption_some, pure_bind, pure_bind]
    cases gap with
    | none => rfl
    | some m =>
      dsimp only
      cases hadd : SetOfMonads.empty.add Sm m with
      | none => rfl
      | some somn =>
        have hin := isGap_of_gapExists hSu.repInv hgap
        have hsub := isSubstrate_range hall (hSu.mem_of_isGap hall hin le_rfl hin.le)
          (hSu.mem_of_isGap hall hin hin.le le_rfl) hadd
        rw [ofOption_some, pure_bind, pure_bind, h somn somn hsub]

/-- A `NOTEXIST` block, of which the inner blocks agree. -/
theorem rNOTEXIST_eq (hall : e.allM1.RepInv) (hSu : IsSubstrate e.allM1 U Su)
    {info : ObjectBlockInfo C} (hinfo : info.Findable e) (hinst : ∀ o ∈ info.inst, o.IsIn e.allM1)
    (optBlocks : OptBlocks C) {R R' : SetOfMonads → SetOfMonads → Eval σ (Option Sheaf)}
    (h : ∀ U Su, IsSubstrate e.allM1 U Su → R U Su = R' U Su)
    (afterNonNOTEXIST noOptBlocks : Bool) :
    rNOTEXIST U Su Sm afterNonNOTEXIST
        (fun U Su Sm =>
          (env.withStartMonads e).getSMIObjectBlock (.mk info optBlocks) U Su Sm false)
        (fun U Su Sm => rObjectBlockInst (env.withStartMonads e) U Su Sm info noOptBlocks R)
      = rNOTEXIST U Su Sm afterNonNOTEXIST
        (fun U Su Sm => env.withEveryMonad.getSMIObjectBlock (.mk info optBlocks) U Su Sm false)
        (fun U Su Sm => rObjectBlockInst env.withEveryMonad U Su Sm info noOptBlocks R') := by
  have hsame : ∀ {A B : SetOfMonads} {m : Int}, A.RepInv → B.RepInv → B.mem ⊆ e.allM1.mem →
      B.mem ⊆ A.mem → (B.monadMs ≠ [] → m ≤ B.last) →
      ((env.withStartMonads e).getSMIObjectBlock (.mk info optBlocks) A B m false >>=
          itWasThere fun m => rObjectBlockInst (env.withStartMonads e) A B m info noOptBlocks R)
        = env.withEveryMonad.getSMIObjectBlock (.mk info optBlocks) A B m false >>=
          itWasThere fun m => rObjectBlockInst env.withEveryMonad A B m info noOptBlocks R' := by
    intro A B m hA hB hsub hrange hm
    obtain ⟨smi, hsmi, htries⟩ := notExist_getSMI hinfo hinst hall hA hB hsub hrange hm optBlocks
    change (ofOption (((ObjectBlock.mk info optBlocks).getSMI e true B m false).map
      StartMonadIterator.monads) >>= _) = (pure (everyMonad A m) >>= _)
    rw [hsmi, Option.map_some, ofOption_some, pure_bind, pure_bind]
    simp only [rObjectBlockInst_congr hinst h]
    exact itWasThere_eq (htries.mono fun m hm => rObjectBlockInst_eq_nil hm _ _)
  unfold rNOTEXIST
  dsimp only
  have hrestricted := rRestrict_spec hSu.repInv Sm
  have hrestrictedU := rRestrict_spec hSu.rangeRep Sm
  cases afterNonNOTEXIST with
  | true =>
    simp only [if_true]
    simp only [← bind_assoc]
    rw [hsame hrestrictedU.1 hrestricted.1]
    · rw [hrestricted.2]
      exact fun m hm => hSu.subset hm.1
    · rw [hrestricted.2, hrestrictedU.2]
      exact fun m hm => ⟨hSu.substrate_subset hm.1, hm.2⟩
    · intro hne
      have hlast := (hrestricted.1.isGreatest_last hne).1
      rw [hrestricted.2] at hlast
      exact hlast.2
  | false =>
    simp only [Bool.false_eq_true, if_false]
    simp only [← bind_assoc]
    rw [hsame hSu.rangeRep hSu.repInv hSu.subset hSu.substrate_subset]
    intro _
    rw [hSu.universe_first]
    exact hSu.first_le_last

/-- An object block of an unordered group, if it is the same at every start monad. -/
theorem objectBlockLOS_every (hall : e.allM1.RepInv) (hSu : IsSubstrate e.allM1 U Su)
    {info : ObjectBlockInfo C} {optBlocks : OptBlocks C} (hinfo : info.Findable e)
    (hinst : ∀ o ∈ info.inst, o.IsIn e.allM1) (bContinueExecution : Bool)
    (h : ∀ Sm, Evaluator.rObjectBlock (env.withStartMonads e) rGroup (.mk info optBlocks) U Su Sm
      = Evaluator.rObjectBlock env.withEveryMonad rGroup (.mk info optBlocks) U Su Sm) :
    objectBlockLOS bContinueExecution
        ((env.withStartMonads e).getSMIObjectBlock (.mk info optBlocks) U Su Su.first true)
        (fun Sm =>
          Evaluator.rObjectBlock (env.withStartMonads e) rGroup (.mk info optBlocks) U Su Sm)
      = objectBlockLOS bContinueExecution
        (env.withEveryMonad.getSMIObjectBlock (.mk info optBlocks) U Su Su.first true)
        fun Sm =>
          Evaluator.rObjectBlock env.withEveryMonad rGroup (.mk info optBlocks) U Su Sm := by
  obtain ⟨smi, hsmi, hcovers, -⟩ := objectBlock_getSMI hinfo hinst hall hSu hSu.first_le_last
    optBlocks true
  have hget : (env.withStartMonads e).getSMIObjectBlock (.mk info optBlocks) U Su Su.first true
      = pure smi.monads := by
    change ofOption (((ObjectBlock.mk info optBlocks).getSMI e false Su Su.first true).map
      StartMonadIterator.monads) = _
    rw [hsmi]
    rfl
  rw [hget, funext h]
  refine objectBlockLOS_eq (hcovers.tries.mono fun m hm => ?_) bContinueExecution
  rw [Evaluator.rObjectBlock]
  exact rObjectBlockInst_eq_nil hm _ _

mutual

theorem rObjectBlock_every (hall : e.allM1.IsRange) : ∀ (b : ObjectBlock C), b.Searchable e →
    ∀ (U Su : SetOfMonads) (Sm : Int),
      Evaluator.rObjectBlock (env.withStartMonads e) rGroup b U Su Sm
        = Evaluator.rObjectBlock env.withEveryMonad rGroup b U Su Sm
  | .mk info optBlocks, hb, U, Su, Sm => by
    rw [Evaluator.rObjectBlock, Evaluator.rObjectBlock]
    exact rObjectBlockInst_congr hb.1
      (fun U Su hSu => rOptBlocks_every hall hSu maxMonad optBlocks hb.2) _

theorem rGapBlock_every (hall : e.allM1.IsRange) {U Su : SetOfMonads}
    (hSu : IsSubstrate e.allM1 U Su) : ∀ (b : GapBlock C), b.Searchable e →
    ∀ (Sm : Int) (emptyMo : Bool),
      Evaluator.rGapBlock (env.withStartMonads e) rGroup b Su Sm emptyMo
        = Evaluator.rGapBlock env.withEveryMonad rGroup b Su Sm emptyMo
  | .mk retrieval obb optBlocks, hb, Sm, emptyMo => by
    rw [Evaluator.rGapBlock, Evaluator.rGapBlock]
    exact rGap_congr hall hSu
      (fun U Su hSu => rOptBlocks_every hall hSu maxMonad optBlocks hb) _ _ _ _

theorem rOptBlocks_every (hall : e.allM1.IsRange) {U Su : SetOfMonads}
    (hSu : IsSubstrate e.allM1 U Su) (maxRange : Int) : ∀ (b : OptBlocks C), b.Searchable e →
    Evaluator.rOptBlocks (env.withStartMonads e) rGroup b U Su maxRange
      = Evaluator.rOptBlocks env.withEveryMonad rGroup b U Su maxRange
  | .null, _ => by
    rw [Evaluator.rOptBlocks, Evaluator.rOptBlocks]
  | .blocks b, hb => by
    rw [Evaluator.rOptBlocks, Evaluator.rOptBlocks, rBlocks_every hall hSu maxRange b hb]

theorem rBlock_every (hall : e.allM1.IsRange) {U Su : SetOfMonads}
    (hSu : IsSubstrate e.allM1 U Su) : ∀ (b : Block C), b.Searchable e → ∀ Sm : Int,
      Evaluator.rBlock (env.withStartMonads e) rGroup b U Su Sm
        = Evaluator.rBlock env.withEveryMonad rGroup b U Su Sm
  | .gapBlock b, hb, Sm => by
    rw [Evaluator.rBlock, Evaluator.rBlock, rGapBlock_every hall hSu b hb]
  | .optGapBlock b, hb, Sm => by
    rw [Evaluator.rBlock, Evaluator.rBlock, rGapBlock_every hall hSu b hb]
  | .powerBlock _, _, _ => by
    rw [Evaluator.rBlock, Evaluator.rBlock]
  | .objectBlock b, hb, Sm => by
    rw [Evaluator.rBlock, Evaluator.rBlock]
    exact rObjectBlock_every hall b hb U Su Sm
  | .objectBlockNOTEXIST (.mk info optBlocks), hb, Sm => by
    rw [Evaluator.rBlock, Evaluator.rBlock]
    exact rNOTEXIST_eq hall.repInv hSu hb.1 hb.2.1 optBlocks
      (fun U Su hSu => rOptBlocks_every hall hSu maxMonad optBlocks hb.2.2) _ _

theorem rBlockString0_every (hall : e.allM1.IsRange) {U Su : SetOfMonads}
    (hSu : IsSubstrate e.allM1 U Su) (maxRange : Int) : ∀ (b : BlockString0 C), b.Searchable e →
    ∀ Sm : Int, Evaluator.rBlockString0 (env.withStartMonads e) rGroup b U Su Sm maxRange
      = Evaluator.rBlockString0 env.withEveryMonad rGroup b U Su Sm maxRange
  | .block b, hb, Sm => by
    rw [Evaluator.rBlockString0, Evaluator.rBlockString0]
    exact rBlock_every hall hSu b hb Sm
  | .blockString b, hb, Sm => by
    rw [Evaluator.rBlockString0, Evaluator.rBlockString0]
    exact rBlockString_every hall hSu maxRange b hb Sm

theorem rBlockString1_every (hall : e.allM1.IsRange) {U Su : SetOfMonads}
    (hSu : IsSubstrate e.allM1 U Su) (maxRange : Int) : ∀ (b : BlockString1 C), b.Searchable e →
    ∀ Sm : Int, Evaluator.rBlockString1 (env.withStartMonads e) rGroup b U Su Sm maxRange
      = Evaluator.rBlockString1 env.withEveryMonad rGroup b U Su Sm maxRange
  | .nonStar b, hb, Sm => by
    rw [Evaluator.rBlockString1, Evaluator.rBlockString1]
    exact rBlockString0_every hall hSu maxRange b hb Sm
  | .star b starSOM, hb, Sm => by
    rw [Evaluator.rBlockString1, Evaluator.rBlockString1,
      funext (rBlockString0_every hall hSu maxRange b hb)]

theorem rBlockString2_every (hall : e.allM1.IsRange) {U Su : SetOfMonads}
    (hSu : IsSubstrate e.allM1 U Su) (maxRange : Int) : ∀ (b : BlockString2 C), b.Searchable e →
    ∀ Sm : Int, Evaluator.rBlockString2 (env.withStartMonads e) rGroup b U Su Sm maxRange
      = Evaluator.rBlockString2 env.withEveryMonad rGroup b U Su Sm maxRange
  | .blockString1 _ b, hb, Sm => by
    rw [Evaluator.rBlockString2, Evaluator.rBlockString2]
    exact rBlockString1_every hall hSu maxRange b hb Sm
  | .sequence node b (.blockString1 node' next), hb, Sm => by
    rw [Evaluator.rBlockString2, Evaluator.rBlockString2,
      rBlockString1_every hall hSu maxRange b hb.1]
    cases next.getPowerBlock with
    | some power => rfl
    | none =>
      dsimp only
      rw [funext (rBlockString2_every hall hSu maxRange (.blockString1 node' next) hb.2.1)]
      rfl
  | .sequence node b (.sequence node' next nextButOne), hb, Sm => by
    rw [Evaluator.rBlockString2, Evaluator.rBlockString2,
      rBlockString1_every hall hSu maxRange b hb.1]
    cases hpower : next.getPowerBlock with
    | none =>
      dsimp only
      rw [funext (rBlockString2_every hall hSu maxRange (.sequence node' next nextButOne) hb.2.1)]
      rfl
    | some power =>
      dsimp only
      rw [funext (rBlockString2_every hall hSu maxRange nextButOne hb.2.1.2.1)]
      have hfindable := hb.2.1.2.2 (by rw [hpower]; rfl)
      refine rBlockString2PowerBlock_eq (fun Sm hSm => ?_) maxRange node power _
      have hSm' : Sm ≤ Su.last := (le_last_of_rRestrict hSu.repInv hSm).2
      have hinOr : false = true → Sm = Su.first := fun h => absurd h Bool.false_ne_true
      obtain ⟨l, hl, hsame⟩ := (blockString1_getSMI hall.repInv hSu hSm' hinOr hfindable
        (searchable_getBlockString1 hb.2.1.2.1)).exists_pure
      refine ⟨l, _, hl, rfl, hsame.mono fun m hm => ?_⟩
      exact rBlockString2_eq_nil (nothingAt_of_getBlockString1 hm)

theorem rBlockString_every (hall : e.allM1.IsRange) {U Su : SetOfMonads}
    (hSu : IsSubstrate e.allM1 U Su) (maxRange : Int) : ∀ (b : BlockString C), b.Searchable e →
    ∀ Sm : Int, Evaluator.rBlockString (env.withStartMonads e) rGroup b U Su Sm maxRange
      = Evaluator.rBlockString env.withEveryMonad rGroup b U Su Sm maxRange
  | .blockString2 b, hb, Sm => by
    rw [Evaluator.rBlockString, Evaluator.rBlockString]
    exact rBlockString2_every hall hSu maxRange b hb Sm
  | .or b rest, hb, Sm => by
    rw [Evaluator.rBlockString, Evaluator.rBlockString,
      rBlockString2_every hall hSu maxRange b hb.1, rBlockString_every hall hSu maxRange rest hb.2]

theorem rObjectBlockString_every (hall : e.allM1.IsRange) {U Su : SetOfMonads}
    (hSu : IsSubstrate e.allM1 U Su) (bContinueExecution : Bool) :
    ∀ (b : ObjectBlockString C), b.Searchable e →
      Evaluator.rObjectBlockString (env.withStartMonads e) rGroup b U Su bContinueExecution
        = Evaluator.rObjectBlockString env.withEveryMonad rGroup b U Su bContinueExecution
  | .objectBlock (.mk info optBlocks), hb => by
    rw [Evaluator.rObjectBlockString, Evaluator.rObjectBlockString,
      objectBlockLOS_every hall.repInv hSu hb.1 hb.2.1 bContinueExecution
        (rObjectBlock_every hall (.mk info optBlocks) hb.2 U Su)]
  | .append bs (.mk info optBlocks), hb => by
    rw [Evaluator.rObjectBlockString, Evaluator.rObjectBlockString,
      objectBlockLOS_every hall.repInv hSu hb.2.1 hb.2.2.1 bContinueExecution
        (rObjectBlock_every hall (.mk info optBlocks) hb.2.2 U Su),
      rObjectBlockString_every hall hSu bContinueExecution bs hb.1]

theorem rBlocks_every (hall : e.allM1.IsRange) {U Su : SetOfMonads}
    (hSu : IsSubstrate e.allM1 U Su) (maxRange : Int) : ∀ (b : Blocks C), b.Searchable e →
    ∀ (pCallback : Option (MQLResultCallback σ)) (bContinueExecution : Bool),
      Evaluator.rBlocks (env.withStartMonads e) rGroup b U Su maxRange pCallback bContinueExecution
        = Evaluator.rBlocks env.withEveryMonad rGroup b U Su maxRange pCallback bContinueExecution
  | .blockString usingRange b, hb, pCallback, bContinueExecution => by
    rw [Evaluator.rBlocks, Evaluator.rBlocks, funext (rBlockString_every hall hSu maxRange b hb.1)]
    obtain ⟨l, hl, hsame⟩ := (blockString_getSMI hall.repInv hSu hSu.first_le_last (fun _ => rfl)
      hb.2 hb.1).exists_pure
    change rBlocksOfBlockString pCallback bContinueExecution usingRange
      (ofOption ((b.getSMI e U Su Su.first).map StartMonadIterator.monads)) _ = _
    rw [hl]
    exact rBlocksOfBlockString_eq (hsame.mono fun m hm => rBlockString_eq_nil hm) _ _ _
  | .unorderedGroup b, hb, pCallback, bContinueExecution => by
    rw [Evaluator.rBlocks, Evaluator.rBlocks,
      rObjectBlockString_every hall hSu bContinueExecution b hb]

end

/-- **No start is missed.**  The evaluator with the start monads of `getSMI` is the one that tries
every monad of the universe, wherever a block string may start. -/
theorem rBlocks_everyMonad (env : QueryEnv C S σ) (e : StartMonadEnv) (hall : e.allM1.IsRange)
    (blocks : Blocks C) (hblocks : blocks.Searchable e) {U Su : SetOfMonads}
    (hSu : IsSubstrate e.allM1 U Su) (maxRange : Int) (pCallback : Option (MQLResultCallback σ))
    (bContinueExecution : Bool) :
    rBlocks (env.withStartMonads e) blocks U Su maxRange pCallback bContinueExecution
      = rBlocks env.withEveryMonad blocks U Su maxRange pCallback bContinueExecution :=
  rBlocks_every hall hSu maxRange blocks hblocks pCallback bContinueExecution

end Evaluators

section Words

/-- The database of the two words. -/
def wordStarts : StartMonadEnv where
  allM1 := wordMonads
  ourMonadSet := fun _ => Lexer.bytes "monads"
  largestObjectLength := fun _ => 2
  blockStringHasOnlyNOTEXIST := fun _ => false

/-- `[word] .. [word]`. -/
def wordsApart : Blocks Unit :=
  .blockString none (.blockString2 (.sequence 2 (.nonStar wordBlock)
    (.sequence 3 (.nonStar (.block (.powerBlock ⟨0, maxMonad⟩)))
      (.blockString1 4 (.nonStar wordBlock)))))

/-- An object of both words. -/
def bothWords : MonadedObject := StartMonadInfo.rangeObject 9 1 2 one_le_two_monads

def phraseInfo : ObjectBlockInfo Unit where
  obb := ⟨1, .kRetrieve⟩
  firstLast := .kNoFirstLast
  msrc := ⟨.kMSROPartOf, .kMSNSubstrate⟩
  featureConstraints := none
  hasNonParentORUs := false
  isAfterNonNOTEXISTInBlockString := false
  inst := [bothWords]

/-- `[phrase [word] .. [word]]`. -/
def phraseOfWords : Blocks Unit :=
  .blockString none (.blockString2 (.blockString1 1 (.nonStar (.block (.objectBlock
    (.mk phraseInfo (.blocks wordsApart)))))))

theorem wordMonads_spec : wordMonads.RepInv ∧ wordMonads.mem = Set.Icc 1 2 :=
  StartMonadInfo.monadRange_repInv one_le_two_monads (by decide) (by decide)

theorem wordMonads_isSubstrate : IsSubstrate wordMonads wordMonads wordMonads :=
  ⟨wordMonads_spec.1, by decide, subset_rfl, wordMonads_spec.1, wordMonads_spec.2⟩

theorem wordAt_isIn (idD : Nat) {m : Int} (h : 1 ≤ m) (h' : m ≤ 2) :
    (wordAt idD m).IsIn wordMonads := by
  have hmax : m ≤ maxMonad := h'.trans (by decide)
  obtain ⟨hrep, hne, hfirst, -⟩ := wordAt_sound idD h hmax
  have hmem := (StartMonadInfo.monadRange_repInv (le_refl m) (by omega) hmax).2
  have hlast : IsGreatest (wordAt idD m).monads.mem m := by
    change IsGreatest (StartMonadInfo.monadRange m m le_rfl).mem m
    rw [hmem, Set.Icc_self]
    exact isGreatest_singleton
  refine ⟨hrep, hne, ?_, hfirst.symm, (StartMonadInfo.last_of_isGreatest hrep hlast).symm⟩
  change (StartMonadInfo.monadRange m m le_rfl).mem ⊆ _
  rw [hmem, wordMonads_spec.2]
  exact Set.Icc_subset_Icc h h'

theorem wordsApart_searchable : wordsApart.Searchable wordStarts := by
  have hword : wordBlock.Searchable wordStarts := by
    refine ⟨fun o ho => ?_, trivial⟩
    rcases List.mem_cons.mp ho with rfl | ho
    · exact wordAt_isIn 7 (by decide) (by decide)
    · rw [List.mem_singleton.mp ho]
      exact wordAt_isIn 8 (by decide) (by decide)
  have hfindable : wordBlock.Findable wordStarts true true := ⟨by decide, by decide, rfl⟩
  refine ⟨⟨hword, ⟨trivial, hword, fun _ => hfindable⟩, fun hpower => ?_⟩, hfindable⟩
  exact absurd hpower Bool.false_ne_true

theorem phraseOfWords_searchable : phraseOfWords.Searchable wordStarts := by
  refine ⟨⟨fun o ho => ?_, wordsApart_searchable⟩, ⟨by decide, by decide, rfl⟩⟩
  rw [List.mem_singleton.mp ho]
  exact ⟨wordMonads_spec.1, by decide, subset_rfl, by decide, by decide⟩

theorem rBlocks_everyMonad_phrase :
    rBlocks (wordEnv.withStartMonads wordStarts) phraseOfWords wordMonads wordMonads maxMonad none
        true
      = rBlocks wordEnv.withEveryMonad phraseOfWords wordMonads wordMonads maxMonad none true :=
  rBlocks_everyMonad wordEnv wordStarts ⟨wordMonads_spec.1, wordMonads_spec.2⟩ phraseOfWords
    phraseOfWords_searchable wordMonads_isSubstrate maxMonad none true

end Words

end Emdros
