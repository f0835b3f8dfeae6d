/-
# Unordered groups and the retrievable sheaves

Only an unordered group can bring into a sheaf what is not to be retrieved.  A block string goes
through `appendAndSubsumeWhileFiltering`, which leaves such objects out; an unordered group goes
through `appendAndSubsume`, which does not.

So an evaluation is watched at its groups: a second evaluator stops where a group is about to let a
`NORETRIEVE` object in, and otherwise does the same.

* What a watched evaluation returns is retrievable at every depth (section 1).  So if watching
  changes nothing in a run (`Undisturbed`), its sheaf is retrievable.
* A group with a `NORETRIEVE` object block does wrong as soon as each of its object blocks has a
  match, and then its own sheaf is not retrievable (section 2).

`rBlocks_retrievable_iff` has both for one call of `R_blocks`, with `Undisturbed` for the calls
inside.  Queries that have no `NORETRIEVE` in their unordered groups are undisturbed in all runs
(section 3).
-/
import Emdros.MQL.Retrievable

namespace Emdros

open Partial

/-! ## 1. The recursion

An evaluation is watched by stopping it where an unordered group is about to let a `NORETRIEVE`
object into a sheaf.  What a watched evaluation returns is retrievable. -/

namespace ObjectBlock

variable {C : Type}

def obb : ObjectBlock C → ObjectBlockBase
  | mk info _ => info.obb

end ObjectBlock

namespace ObjectBlockString

variable {C : Type}

/-- The object blocks in textual order. -/
def obbs : ObjectBlockString C → List ObjectBlockBase
  | objectBlock b => [b.obb]
  | append bs b => bs.obbs ++ [b.obb]

/-- All of them are to be retrieved. -/
def isRetrieved (bs : ObjectBlockString C) : Bool := bs.obbs.all ObjectBlockBase.isToBeRetrieved

end ObjectBlockString

/-- Each list has the straws of one of the object blocks, and each object block has a list. -/
structure GroupStraws (P : Option Sheaf → Prop) (obbs : List ObjectBlockBase)
    (losList : List (List Straw)) : Prop where
  list : ∀ los ∈ losList, ∃ obb ∈ obbs, ObjectStraws P obb los
  block : ∀ obb ∈ obbs, ∃ los ∈ losList, ObjectStraws P obb los

namespace GroupStraws

variable {P : Option Sheaf → Prop} {obbs obbs' : List ObjectBlockBase} {obb : ObjectBlockBase}
  {los : List Straw} {losList losList' : List (List Straw)}

theorem singleton (h : ObjectStraws P obb los) : GroupStraws P [obb] [los] where
  list := by
    intro los' hlos'
    rw [List.mem_singleton.mp hlos']
    exact ⟨obb, List.mem_singleton_self obb, h⟩
  block := by
    intro obb' hobb'
    rw [List.mem_singleton.mp hobb']
    exact ⟨los, List.mem_singleton_self los, h⟩

theorem append (h : GroupStraws P obbs losList) (h' : GroupStraws P obbs' losList') :
    GroupStraws P (obbs ++ obbs') (losList ++ losList') where
  list := by
    intro los hlos
    rcases List.mem_append.mp hlos with hlos | hlos
    · obtain ⟨obb, hobb, hstraws⟩ := h.list los hlos
      exact ⟨obb, List.mem_append_left obbs' hobb, hstraws⟩
    · obtain ⟨obb, hobb, hstraws⟩ := h'.list los hlos
      exact ⟨obb, List.mem_append_right obbs hobb, hstraws⟩
  block := by
    intro obb hobb
    rcases List.mem_append.mp hobb with hobb | hobb
    · obtain ⟨los, hlos, hstraws⟩ := h.block obb hobb
      exact ⟨los, List.mem_append_left losList' hlos, hstraws⟩
    · obtain ⟨los, hlos, hstraws⟩ := h'.block obb hobb
      exact ⟨los, List.mem_append_right losList hlos, hstraws⟩

theorem innerRetrievable (h : GroupStraws OptRetrievable obbs losList) :
    InnerRetrievable losList.flatten := by
  intro straw hs
  obtain ⟨los, hlos, hs⟩ := List.mem_flatten.mp hs
  obtain ⟨obb, -, hstraws⟩ := h.list los hlos
  exact hstraws.innerRetrievable straw hs

theorem filtered (h : GroupStraws P obbs losList)
    (hobbs : obbs.all ObjectBlockBase.isToBeRetrieved = true) : Filtered losList.flatten := by
  intro straw hs
  obtain ⟨los, hlos, hs⟩ := List.mem_flatten.mp hs
  obtain ⟨obb, hobb, hstraws⟩ := h.list los hlos
  exact hstraws.filtered (List.all_eq_true.mp hobbs obb hobb) straw hs

/-- The straws of a `NORETRIEVE` block are in the sheaf, if there are any. -/
theorem all_of_filtered (h : GroupStraws P obbs losList) (hlosList : [] ∉ losList)
    (hfiltered : Filtered losList.flatten) :
    obbs.all ObjectBlockBase.isToBeRetrieved = true := by
  refine List.all_eq_true.mpr fun obb hobb => ?_
  obtain ⟨los, hlos, hstraws⟩ := h.block obb hobb
  by_contra hnot
  refine hstraws.not_filtered (Bool.eq_false_iff.mpr hnot) ?_ ?_
  · rintro rfl
    exact hlosList hlos
  · exact fun straw hs => hfiltered straw (List.mem_flatten.mpr ⟨los, hlos, hs⟩)

end GroupStraws

section Recursion

variable {C S σ : Type} {env : QueryEnv C S σ}

/-- `rBlocksOfUnorderedGroup`, watched. -/
def watchedGroup (objectBlockString : ObjectBlockString C)
    (pCallback : Option (MQLResultCallback σ)) (bContinueExecution : Bool)
    (losList : List (List Straw)) : Eval σ Sheaf :=
  if objectBlockString.isRetrieved || losList.any List.isEmpty then
    rBlocksOfUnorderedGroup pCallback bContinueExecution losList
  else failure

theorem all_not_isEmpty_iff {losList : List (List Straw)} :
    (losList.all fun los => !los.isEmpty) = true ↔ [] ∉ losList := by
  rw [List.all_eq_true]
  constructor
  · intro h hnil
    exact absurd (h [] hnil) Bool.false_ne_true
  · intro h los hlos
    cases los with
    | nil => exact absurd hlos h
    | cons straw los => rfl

theorem any_isEmpty_iff {losList : List (List Straw)} :
    losList.any List.isEmpty = true ↔ [] ∈ losList := by
  rw [List.any_eq_true]
  constructor
  · rintro ⟨los, hlos, hempty⟩
    rw [List.isEmpty_iff.mp hempty] at hlos
    exact hlos
  · exact fun h => ⟨[], h, rfl⟩

/-- An unordered group of which either all objects are to be retrieved, or there is none of some
kind. -/
theorem ensures_rBlocksOfUnorderedGroup (pCallback : Option (MQLResultCallback σ))
    (bContinueExecution : Bool) {obbs : List ObjectBlockBase} {losList : List (List Straw)}
    (h : GroupStraws OptRetrievable obbs losList)
    (hobbs : obbs.all ObjectBlockBase.isToBeRetrieved = true ∨ [] ∈ losList) :
    Ensures (rBlocksOfUnorderedGroup pCallback bContinueExecution losList)
      Sheaf.Retrievable := by
  refine ensures_finishBlocks pCallback bContinueExecution _ fun _ _ hnoEmpty => ?_
  rcases hobbs with hobbs | hnil
  · exact retrievable_plist_iff.mpr ⟨h.filtered hobbs, h.innerRetrievable⟩
  · exact absurd hnil (all_not_isEmpty_iff.mp hnoEmpty)

theorem ensures_watchedGroup (bs : ObjectBlockString C)
    (pCallback : Option (MQLResultCallback σ)) (bContinueExecution : Bool)
    {losList : List (List Straw)} (h : GroupStraws OptRetrievable bs.obbs losList) :
    Ensures (watchedGroup bs pCallback bContinueExecution losList) Sheaf.Retrievable := by
  refine Ensures.ite (fun hwatch => ?_) fun _ => Ensures.failure
  refine ensures_rBlocksOfUnorderedGroup pCallback bContinueExecution h ?_
  exact (Bool.or_eq_true_iff.mp hwatch).imp id any_isEmpty_iff.mp

-- The invariant of the recursion: a list of straws has retrievable inner sheaves, and a sheaf is
-- retrievable.
mutual

theorem ensures_rObjectBlock : ∀ (b : ObjectBlock C) (U Su : SetOfMonads) (Sm : Int),
    Ensures (Evaluator.rObjectBlock env watchedGroup b U Su Sm)
      (ObjectStraws OptRetrievable b.obb)
  | .mk info optBlocks, U, Su, Sm => by
    rw [Evaluator.rObjectBlock]
    exact ensures_rObjectBlockInst optRetrievable_none info _ fun U Su =>
      ensures_rOptBlocks optBlocks U Su maxMonad

theorem ensures_rGapBlock : ∀ (b : GapBlock C) (Su : SetOfMonads) (Sm : Int) (emptyMo : Bool),
    Ensures (Evaluator.rGapBlock env watchedGroup b Su Sm emptyMo)
      fun pMO => InnerRetrievable (losOfGap pMO)
  | .mk retrieval obb optBlocks, Su, Sm, emptyMo => by
    rw [Evaluator.rGapBlock]
    exact ensures_rGap retrieval obb _
      (fun U Su => ensures_rOptBlocks optBlocks U Su maxMonad) emptyMo

theorem ensures_rOptBlocks : ∀ (b : OptBlocks C) (U Su : SetOfMonads) (maxRange : Int),
    Ensures (Evaluator.rOptBlocks env watchedGroup b U Su maxRange) OptRetrievable
  | .null, U, Su, maxRange => by
    rw [Evaluator.rOptBlocks]
    exact Ensures.pure optRetrievable_none
  | .blocks blocks, U, Su, maxRange => by
    rw [Evaluator.rOptBlocks]
    refine (ensures_rBlocks blocks U Su maxRange none true).bind fun sheaf hsheaf => ?_
    refine Ensures.pure fun sheaf' hsheaf' => ?_
    cases hsheaf'
    exact hsheaf

theorem ensures_rBlock : ∀ (b : Block C) (U Su : SetOfMonads) (Sm : Int),
    Ensures (Evaluator.rBlock env watchedGroup b U Su Sm) InnerRetrievable
  | .gapBlock b, U, Su, Sm => by
    rw [Evaluator.rBlock]
    exact (ensures_rGapBlock b Su Sm false).bind fun _ h => Ensures.pure h
  | .optGapBlock b, U, Su, Sm => by
    rw [Evaluator.rBlock]
    exact (ensures_rGapBlock b Su Sm true).bind fun _ h => Ensures.pure h
  | .powerBlock power, U, Su, Sm => by
    rw [Evaluator.rBlock]
    exact Ensures.failure
  | .objectBlock b, U, Su, Sm => by
    rw [Evaluator.rBlock]
    exact (ensures_rObjectBlock b U Su Sm).mono fun _ h => h.innerRetrievable
  | .objectBlockNOTEXIST (.mk info optBlocks), U, Su, Sm => by
    rw [Evaluator.rBlock]
    exact ensures_rNOTEXIST _ _ _

theorem ensures_rBlockString0 : ∀ (b : BlockString0 C) (U Su : SetOfMonads)
    (Sm maxRange : Int),
    Ensures (Evaluator.rBlockString0 env watchedGroup b U Su Sm maxRange) InnerRetrievable
  | .block b, U, Su, Sm, maxRange => by
    rw [Evaluator.rBlockString0]
    exact ensures_rBlock b U Su Sm
  | .blockString b, U, Su, Sm, maxRange => by
    rw [Evaluator.rBlockString0]
    exact ensures_rBlockString b U Su Sm maxRange

theorem ensures_rBlockString1 : ∀ (b : BlockString1 C) (U Su : SetOfMonads)
    (Sm maxRange : Int),
    Ensures (Evaluator.rBlockString1 env watchedGroup b U Su Sm maxRange) InnerRetrievable
  | .nonStar b, U, Su, Sm, maxRange => by
    rw [Evaluator.rBlockString1]
    exact ensures_rBlockString0 b U Su Sm maxRange
  | .star b starSOM, U, Su, Sm, maxRange => by
    rw [Evaluator.rBlockString1]
    exact ensures_rStar starSOM fun Sm => ensures_rBlockString0 b U Su Sm maxRange

theorem ensures_rBlockString2 : ∀ (b : BlockString2 C) (U Su : SetOfMonads)
    (Sm maxRange : Int),
    Ensures (Evaluator.rBlockString2 env watchedGroup b U Su Sm maxRange) InnerRetrievable
  | .blockString1 node b, U, Su, Sm, maxRange => by
    rw [Evaluator.rBlockString2]
    exact ensures_rBlockString1 b U Su Sm maxRange
  | .sequence node b (.blockString1 node' next), U, Su, Sm, maxRange => by
    rw [Evaluator.rBlockString2]
    have hfirst := ensures_rBlockString1 b U Su Sm maxRange
    split
    · exact ensures_rBlockString2PowerBlock maxRange node _ hfirst _ fun _ => Ensures.failure
    · exact ensures_rBlockString2NonPowerBlock node hfirst fun Sm =>
        ensures_rBlockString2 (.blockString1 node' next) U Su Sm maxRange
  | .sequence node b (.sequence node' next nextButOne), U, Su, Sm, maxRange => by
    rw [Evaluator.rBlockString2]
    have hfirst := ensures_rBlockString1 b U Su Sm maxRange
    split
    · exact ensures_rBlockString2PowerBlock maxRange node _ hfirst _ fun Sm =>
        ensures_rBlockString2 nextButOne U Su Sm maxRange
    · exact ensures_rBlockString2NonPowerBlock node hfirst fun Sm =>
        ensures_rBlockString2 (.sequence node' next nextButOne) U Su Sm maxRange

theorem ensures_rBlockString : ∀ (b : BlockString C) (U Su : SetOfMonads)
    (Sm maxRange : Int),
    Ensures (Evaluator.rBlockString env watchedGroup b U Su Sm maxRange) InnerRetrievable
  | .blockString2 b, U, Su, Sm, maxRange => by
    rw [Evaluator.rBlockString]
    exact ensures_rBlockString2 b U Su Sm maxRange
  | .or b b', U, Su, Sm, maxRange => by
    rw [Evaluator.rBlockString]
    refine (ensures_rBlockString2 b U Su Sm maxRange).bind fun los hlos => ?_
    refine (ensures_rBlockString b' U Su Sm maxRange).bind fun los' hlos' => ?_
    refine Ensures.ite (fun _ => Ensures.pure hlos') fun _ => ?_
    exact Ensures.ite (fun _ => Ensures.pure hlos) fun _ => Ensures.pure (hlos.append hlos')

theorem ensures_rObjectBlockString : ∀ (b : ObjectBlockString C) (U Su : SetOfMonads)
    (bContinueExecution : Bool),
    Ensures (Evaluator.rObjectBlockString env watchedGroup b U Su bContinueExecution)
      (GroupStraws OptRetrievable b.obbs)
  | .objectBlock b, U, Su, bContinueExecution => by
    rw [Evaluator.rObjectBlockString]
    have hb := ensures_objectBlockLOS bContinueExecution (env.getSMIObjectBlock b U Su Su.first true)
      fun Sm => ensures_rObjectBlock b U Su Sm
    exact hb.bind fun los hlos => Ensures.pure (GroupStraws.singleton hlos)
  | .append bs b, U, Su, bContinueExecution => by
    rw [Evaluator.rObjectBlockString]
    have hb := ensures_objectBlockLOS bContinueExecution (env.getSMIObjectBlock b U Su Su.first true)
      fun Sm => ensures_rObjectBlock b U Su Sm
    refine hb.bind fun los hlos => ?_
    refine (ensures_rObjectBlockString bs U Su bContinueExecution).bind fun losList hlosList => ?_
    exact Ensures.pure (hlosList.append (GroupStraws.singleton hlos))

theorem ensures_rBlocks : ∀ (b : Blocks C) (U Su : SetOfMonads) (maxRange : Int)
    (pCallback : Option (MQLResultCallback σ)) (bContinueExecution : Bool),
    Ensures (Evaluator.rBlocks env watchedGroup b U Su maxRange pCallback bContinueExecution)
      Sheaf.Retrievable
  | .blockString usingRange b, U, Su, maxRange, pCallback, bContinueExecution => by
    rw [Evaluator.rBlocks]
    exact ensures_rBlocksOfBlockString pCallback bContinueExecution usingRange _ fun Sm =>
      ensures_rBlockString b U Su Sm maxRange
  | .unorderedGroup b, U, Su, maxRange, pCallback, bContinueExecution => by
    rw [Evaluator.rBlocks]
    refine (ensures_rObjectBlockString b U Su bContinueExecution).bind fun losList hlosList => ?_
    exact ensures_watchedGroup b pCallback bContinueExecution hlosList

end

end Recursion

/-! ## 2. Which sheaves are retrievable, and which fail -/

section Success

variable {σ : Type} {rBlockString : Int → Eval σ (List Straw)}

/-- No straw at any of the start monads. -/
def NoneMatch (rBlockString : Int → Eval σ (List Straw)) (smi : List Int) (s : σ) : Prop :=
  ∃ losList s', (smi.mapM rBlockString).run s = some (losList, s') ∧ ∀ los ∈ losList, los = []

theorem noneMatch_nil (s : σ) : NoneMatch rBlockString [] s :=
  ⟨[], s, rfl, fun _ h => absurd h List.not_mem_nil⟩

theorem noneMatch_cons {Sm : Int} {smi : List Int} {s s₁ : σ} {los : List Straw}
    (hrun : (rBlockString Sm).run s = some (los, s₁)) :
    NoneMatch rBlockString (Sm :: smi) s ↔ los = [] ∧ NoneMatch rBlockString smi s₁ := by
  have hcons : ((Sm :: smi).mapM rBlockString).run s
      = (smi.mapM rBlockString >>= fun losList => pure (los :: losList)).run s₁ := by
    rw [List.mapM_cons]
    exact run_bind_of_some hrun
  constructor
  · rintro ⟨losList, s', hmapM, hempty⟩
    obtain ⟨rest, s₂, hrest, hpure⟩ := bind_eq_some.mp (hcons.symm.trans hmapM)
    cases pure_eq_some.mp hpure
    exact ⟨hempty los List.mem_cons_self, rest, s', hrest,
      fun los' h => hempty los' (List.mem_cons_of_mem los h)⟩
  · rintro ⟨rfl, rest, s', hrest, hempty⟩
    refine ⟨[] :: rest, s', ?_, ?_⟩
    · exact hcons.trans (bind_eq_some.mpr ⟨rest, s', hrest, pure_eq_some.mpr rfl⟩)
    · intro los' h
      rcases List.mem_cons.mp h with rfl | h
      · rfl
      · exact hempty los' h

/-- A callback that never stops the evaluation. -/
def NeverStops (pCallback : Option (MQLResultCallback σ)) : Prop :=
  ∀ callback, pCallback = some callback →
    (∀ s, (callback.startSheaf s).1.1 = true) ∧ ∀ los s, (callback.nextLOS los s).1 = true

variable {pCallback : Option (MQLResultCallback σ)}

theorem ensures_storeLOS_continue (hcallback : NeverStops pCallback) (bStoreSheafInMemory : Bool)
    (pResultLOS pIntermediateLOS : Nat) (heap : Heap (List Straw)) :
    Ensures (storeLOS pCallback bStoreSheafInMemory pResultLOS pIntermediateLOS heap)
      fun r => r.2 = true := by
  cases pCallback with
  | none => exact Ensures.bind_right fun _ => Ensures.pure rfl
  | some callback =>
    refine Ensures.bind_right fun los => ?_
    have hnext : Ensures (fun s => some (callback.nextLOS los.1 s) : Eval σ Bool)
        fun bContinue => bContinue = true := by
      intro s _ bContinue s' hrun
      have hb : (callback.nextLOS los.1 s).1 = bContinue :=
        congrArg Prod.fst (Option.some_inj.mp hrun)
      exact hb.symm.trans ((hcallback callback rfl).2 los.1 s)
    refine hnext.bind fun bContinue hbContinue => ?_
    exact Ensures.ite (fun _ => Ensures.bind_right fun _ => Ensures.pure hbContinue)
      fun _ => Ensures.bind_right fun _ => Ensures.pure hbContinue

/-- `bSuccess` stays false as long as nothing matches. -/
theorem blocksLoop_bSuccess (hcallback : NeverStops pCallback) (bStoreSheafInMemory : Bool)
    (pUR : Option UsingRange) (pResultLOS : Nat) :
    ∀ (smi : List Int) (v v' : BlocksLoop) (s s' : σ), v.bContinueExecution = true →
      (blocksLoop pCallback bStoreSheafInMemory pUR pResultLOS rBlockString smi v).run s
        = some (v', s') →
      v'.bContinueExecution = true ∧
        (v'.bSuccess = false ↔ v.bSuccess = false ∧ NoneMatch rBlockString smi s)
  | [], v, v', s, s', hv, hrun => by
    cases pure_eq_some.mp hrun
    exact ⟨hv, fun h => ⟨h, noneMatch_nil s⟩, fun h => h.1⟩
  | Sm :: smi, v, v', s, s', hv, hrun => by
    unfold blocksLoop at hrun
    rw [if_pos hv] at hrun
    obtain ⟨los, s₁, hlos, hrun⟩ := bind_eq_some.mp hrun
    rw [noneMatch_cons hlos]
    by_cases hempty : los.isEmpty = true
    · rw [if_pos hempty] at hrun
      obtain ⟨hv', hiff⟩ :=
        blocksLoop_bSuccess hcallback bStoreSheafInMemory pUR pResultLOS smi v v' s₁ s' hv hrun
      refine ⟨hv', hiff.trans ?_⟩
      rw [List.isEmpty_iff.mp hempty]
      exact and_congr_right fun _ => ⟨fun h => ⟨rfl, h⟩, fun h => h.2⟩
    · rw [if_neg hempty] at hrun
      have hne : los ≠ [] := fun h => hempty (List.isEmpty_iff.mpr h)
      -- from here on `bSuccess` is true
      have hsuccess : v'.bContinueExecution = true ∧ v'.bSuccess = true → v'.bContinueExecution = true ∧
          (v'.bSuccess = false ↔ v.bSuccess = false ∧ los = [] ∧ NoneMatch rBlockString smi s₁) := by
        rintro ⟨hv', hsuccess⟩
        rw [hsuccess]
        exact ⟨hv', fun h => absurd h (by decide), fun h => absurd h.2.1 hne⟩
      have hloop : ∀ (w : BlocksLoop) (s₂ : σ), w.bContinueExecution = true → w.bSuccess = true →
          (blocksLoop pCallback bStoreSheafInMemory pUR pResultLOS rBlockString smi w).run s₂
            = some (v', s') → v'.bContinueExecution = true ∧ v'.bSuccess = true := by
        intro w s₂ hw hwsuccess hrun
        obtain ⟨hv', hiff⟩ :=
          blocksLoop_bSuccess hcallback bStoreSheafInMemory pUR pResultLOS smi w v' s₂ s' hw hrun
        rw [hwsuccess] at hiff
        exact ⟨hv', Bool.of_not_eq_false fun h => absurd (hiff.mp h).1 (by decide)⟩
      obtain ⟨⟨step, heap⟩, s₂, -, hrun⟩ := bind_eq_some.mp hrun
      apply hsuccess
      cases step with
      | continue_ count => exact hloop { v with heap, count, bSuccess := true } s₂ hv rfl hrun
      | break_ count =>
        cases pure_eq_some.mp hrun
        exact ⟨hv, rfl⟩
      | store count pIntermediateLOS =>
        obtain ⟨⟨heap', bContinue⟩, s₃, hstore, hrun⟩ := bind_eq_some.mp hrun
        have hcontinue := (ensures_storeLOS_continue hcallback bStoreSheafInMemory pResultLOS
          pIntermediateLOS heap).of_run hstore
        exact hloop { heap := heap', count, bSuccess := true, bContinueExecution := bContinue }
          s₃ hcontinue rfl hrun

theorem finishBlocks_isFail {bSuccess : Bool} {los : List Straw} {s s' : σ} {sheaf : Sheaf}
    (hrun : (finishBlocks pCallback true bSuccess los).run s = some (sheaf, s')) :
    sheaf.isFail = true ↔ bSuccess = false := by
  cases bSuccess with
  | false =>
    cases pCallback <;> cases hrun
    all_goals exact ⟨fun _ => rfl, fun _ => rfl⟩
  | true =>
    cases pCallback <;> cases hrun
    all_goals exact ⟨fun h => Bool.noConfusion h, fun h => Bool.noConfusion h⟩

theorem rBlockStringFrom_isFail (hcallback : NeverStops pCallback) {bStoreSheafInMemory : Bool}
    {pUR : Option UsingRange} {getSMI : Eval σ (List Int)} {s s' : σ} {sheaf : Sheaf}
    (hrun : (rBlockStringFrom pCallback true bStoreSheafInMemory pUR getSMI rBlockString).run s
      = some (sheaf, s')) :
    sheaf.isFail = true ↔
      ∃ smi s₁, getSMI.run s = some (smi, s₁) ∧ NoneMatch rBlockString smi s₁ := by
  obtain ⟨smi, s₁, hsmi, hrun⟩ := bind_eq_some.mp hrun
  obtain ⟨v, s₂, hloop, hrun⟩ := bind_eq_some.mp hrun
  obtain ⟨r, s₃, -, hrun⟩ := bind_eq_some.mp hrun
  obtain ⟨hv, hiff⟩ := blocksLoop_bSuccess hcallback _ _ _ smi _ v s₁ s₂ rfl hloop
  rw [hv] at hrun
  rw [finishBlocks_isFail hrun, hiff]
  constructor
  · exact fun h => ⟨smi, s₁, hsmi, h.2⟩
  · rintro ⟨smi', s₁', hsmi', hnone⟩
    cases hsmi.symm.trans hsmi'
    exact ⟨rfl, hnone⟩

end Success

section Exact

variable {C S σ : Type} (env : QueryEnv C S σ)

/-- The state in which the start monads of a block string are asked for. -/
def Blocks.startState (blocks : Blocks C) (pCallback : Option (MQLResultCallback σ)) (s : σ) : σ :=
  match blocks, pCallback with
  | .blockString _ _, some callback => (callback.startSheaf s).2
  | _, _ => s

/-- No straw was matched: by a block string, at no start monad; by an unordered group, for one of
its object blocks. -/
def NothingMatched (blocks : Blocks C) (U Su : SetOfMonads) (maxRange : Int) (s : σ) : Prop :=
  match blocks with
  | .blockString _ bs => ∃ smi s₁, (env.getSMIBlockString bs U Su Su.first).run s = some (smi, s₁) ∧
      NoneMatch (fun Sm => rBlockString env bs U Su Sm maxRange) smi s₁
  | .unorderedGroup bs => ∃ losList s₁,
      (rObjectBlockString env bs U Su true).run s = some (losList, s₁) ∧ [] ∈ losList

/-- If these are an unordered group, its object blocks are to be retrieved. -/
def Blocks.isRetrieved : Blocks C → Bool
  | blockString _ _ => true
  | unorderedGroup bs => bs.isRetrieved

/-- Below these blocks no unordered group lets a `NORETRIEVE` object into a sheaf: watching them
changes nothing. -/
def Undisturbed (blocks : Blocks C) (U Su : SetOfMonads) (maxRange : Int)
    (pCallback : Option (MQLResultCallback σ)) (s : σ) : Prop :=
  match blocks with
  | .blockString usingRange bs =>
    (Evaluator.rBlocks env watchedGroup (.blockString usingRange bs) U Su maxRange pCallback
      true).run s = (rBlocks env (.blockString usingRange bs) U Su maxRange pCallback true).run s
  | .unorderedGroup bs =>
    (Evaluator.rObjectBlockString env watchedGroup bs U Su true).run s
      = (rObjectBlockString env bs U Su true).run s

variable {env} {U Su : SetOfMonads}

section Straws

variable {rGroup : ObjectBlockString C → Option (MQLResultCallback σ) → Bool →
  List (List Straw) → Eval σ Sheaf}

/-- The list of one object block, whatever is done with groups below it. -/
theorem ensures_objectStraws (bContinueExecution : Bool) (b : ObjectBlock C) :
    Ensures (objectBlockLOS bContinueExecution (env.getSMIObjectBlock b U Su Su.first true)
      fun Sm => Evaluator.rObjectBlock env rGroup b U Su Sm)
      (ObjectStraws (fun _ => True) b.obb) := by
  refine ensures_objectBlockLOS _ _ fun Sm => ?_
  obtain ⟨info, optBlocks⟩ := b
  rw [Evaluator.rObjectBlock]
  exact ensures_rObjectBlockInst trivial info _ fun _ _ _ _ _ _ _ => trivial

theorem ensures_groupStraws (bContinueExecution : Bool) : ∀ bs : ObjectBlockString C,
    Ensures (Evaluator.rObjectBlockString env rGroup bs U Su bContinueExecution)
      (GroupStraws (fun _ => True) bs.obbs)
  | .objectBlock b => by
    rw [Evaluator.rObjectBlockString]
    exact (ensures_objectStraws bContinueExecution b).bind fun los hlos =>
      Ensures.pure (GroupStraws.singleton hlos)
  | .append bs b => by
    rw [Evaluator.rObjectBlockString]
    refine (ensures_objectStraws bContinueExecution b).bind fun los hlos => ?_
    refine (ensures_groupStraws bContinueExecution bs).bind fun losList hlosList => ?_
    exact Ensures.pure (hlosList.append (GroupStraws.singleton hlos))

end Straws

section Group

variable {pCallback : Option (MQLResultCallback σ)} {bs : ObjectBlockString C} {s s' : σ}
  {sheaf : Sheaf}

/-- `R_blocks` on an unordered group, taken apart. -/
theorem rBlocks_unorderedGroup {maxRange : Int}
    (hrun : (rBlocks env (.unorderedGroup bs) U Su maxRange pCallback true).run s
      = some (sheaf, s')) :
    ∃ losList s₁, (rObjectBlockString env bs U Su true).run s = some (losList, s₁) ∧
      (rBlocksOfUnorderedGroup pCallback true losList).run s₁ = some (sheaf, s') := by
  unfold rBlocks at hrun
  rw [Evaluator.rBlocks] at hrun
  exact bind_eq_some.mp hrun

theorem nothingMatched_iff {maxRange : Int} {losList : List (List Straw)}
    (hlosList : (rObjectBlockString env bs U Su true).run s = some (losList, s')) :
    NothingMatched env (.unorderedGroup bs) U Su maxRange s ↔ [] ∈ losList := by
  constructor
  · rintro ⟨losList', s₁, hlosList', hnil⟩
    cases hlosList.symm.trans hlosList'
    exact hnil
  · exact fun hnil => ⟨losList, s', hlosList, hnil⟩

/-- A group with a `NORETRIEVE` object block and a match for each object block has a straw that
should have been filtered out. -/
theorem retrieved_of_retrievable {losList : List (List Straw)}
    (hlists : GroupStraws (fun _ => True) bs.obbs losList)
    (hrun : (rBlocksOfUnorderedGroup pCallback true losList).run s = some (sheaf, s'))
    (hretrievable : sheaf.Retrievable) :
    pCallback ≠ none ∨ bs.isRetrieved = true ∨ [] ∈ losList := by
  by_cases hcallback : pCallback = none
  · by_cases hnil : [] ∈ losList
    · exact Or.inr (Or.inr hnil)
    · unfold rBlocksOfUnorderedGroup at hrun
      rw [hcallback, all_not_isEmpty_iff.mpr hnil] at hrun
      cases hrun
      obtain ⟨hfiltered, -⟩ := retrievable_plist_iff.mp hretrievable
      exact Or.inr (Or.inl (hlists.all_of_filtered hnil hfiltered))
  · exact Or.inl hcallback

end Group

/-- A block string fails if there is no straw at any of its start monads. -/
theorem rBlockString_isFail {pCallback : Option (MQLResultCallback σ)}
    (hcallback : NeverStops pCallback) {usingRange : Option UsingRange} {bs : BlockString C}
    {maxRange : Int} {s s' : σ} {sheaf : Sheaf}
    (hrun : (rBlocks env (.blockString usingRange bs) U Su maxRange pCallback true).run s
      = some (sheaf, s')) :
    sheaf.isFail = true ↔ NothingMatched env (.blockString usingRange bs) U Su maxRange
      (Blocks.startState (.blockString usingRange bs) pCallback s) := by
  unfold rBlocks at hrun
  rw [Evaluator.rBlocks] at hrun
  cases pCallback with
  | none => exact rBlockStringFrom_isFail hcallback hrun
  | some callback =>
    obtain ⟨⟨bContinue, bStoreSheafInMemory⟩, s₁, hstart, hrun⟩ := bind_eq_some.mp hrun
    have hr : callback.startSheaf s = ((bContinue, bStoreSheafInMemory), s₁) :=
      Option.some_inj.mp hstart
    have hbContinue : bContinue = true := by
      have h := (hcallback callback rfl).1 s
      rw [hr] at h
      exact h
    have hs₁ : Blocks.startState (.blockString usingRange bs) (some callback) s = s₁ :=
      congrArg Prod.snd hr
    rw [hs₁]
    cases hbContinue
    exact rBlockStringFrom_isFail hcallback hrun

/-- **Retrievable sheaves.**  What `R_blocks` returns on a block string is retrievable, and on an
unordered group it is if and only if all object blocks are to be retrieved or one of them has no
match, provided that no group below does wrong; with a callback no straw is left in the sheaf.
The sheaf is failed if and only if nothing was matched. -/
theorem rBlocks_retrievable_iff (blocks : Blocks C) (U Su : SetOfMonads) (maxRange : Int)
    (pCallback : Option (MQLResultCallback σ)) {s s' : σ} {sheaf : Sheaf}
    (hrun : (rBlocks env blocks U Su maxRange pCallback true).run s = some (sheaf, s')) :
    (sheaf.Retrievable → pCallback ≠ none ∨ blocks.isRetrieved = true ∨
        NothingMatched env blocks U Su maxRange (blocks.startState pCallback s)) ∧
      ((pCallback ≠ none ∨ blocks.isRetrieved = true ∨
          NothingMatched env blocks U Su maxRange (blocks.startState pCallback s)) →
        Undisturbed env blocks U Su maxRange pCallback s → sheaf.Retrievable) ∧
      (NeverStops pCallback → (sheaf.isFail = true ↔
        NothingMatched env blocks U Su maxRange (blocks.startState pCallback s))) := by
  cases blocks with
  | blockString usingRange bs =>
    refine ⟨fun _ => Or.inr (Or.inl rfl), fun _ hsame => ?_, fun hcallback => ?_⟩
    · exact (ensures_rBlocks (.blockString usingRange bs) U Su maxRange pCallback true).of_run
        (Eq.trans hsame hrun)
    · exact rBlockString_isFail hcallback hrun
  | unorderedGroup bs =>
    obtain ⟨losList, s₁, hlosList, hgroup⟩ := rBlocks_unorderedGroup hrun
    have hnothing : NothingMatched env (.unorderedGroup bs) U Su maxRange
        (Blocks.startState (.unorderedGroup bs) pCallback s) ↔ [] ∈ losList :=
      nothingMatched_iff hlosList
    rw [hnothing]
    refine ⟨?_, ?_, ?_⟩
    · intro hretrievable
      exact retrieved_of_retrievable ((ensures_groupStraws true bs).of_run hlosList) hgroup
        hretrievable
    · intro hretrieved hsame
      have hlists := (ensures_rObjectBlockString bs U Su true).of_run (Eq.trans hsame hlosList)
      rcases hretrieved with hcallback | hretrieved
      · exact (ensures_finishBlocks pCallback true _ fun h => absurd h hcallback).of_run hgroup
      · exact (ensures_rBlocksOfUnorderedGroup pCallback true hlists hretrieved).of_run hgroup
    · intro _
      rw [finishBlocks_isFail hgroup, ← Bool.not_eq_true, all_not_isEmpty_iff, not_not]

section Example

/-- One object, at monad 1. -/
def exampleObject : MonadedObject where
  idD := 7
  first := 1
  last := 1
  monads := SetOfMonads.empty.addMonad 1
  idD_nonneg := by decide

/-- `[UNORDERED GROUP [Word NORETRIEVE]]`, or with another retrieval. -/
def exampleGroup (retrieval : ERetrieval) : Blocks Unit :=
  .unorderedGroup (.objectBlock (.mk
    { obb := ⟨1, retrieval⟩
      firstLast := .kNoFirstLast
      msrc := ⟨.kMSROStartsIn, .kMSNSubstrate⟩
      featureConstraints := none
      hasNonParentORUs := false
      isAfterNonNOTEXISTInBlockString := false
      inst := [exampleObject] } .null))

/-- No object references, and one start monad. -/
def exampleEnv : QueryEnv Unit Unit Unit where
  getSMIBlockString := fun _ _ _ _ => pure [1]
  getSMIBlockString1 := fun _ _ _ _ => pure [1]
  getSMIObjectBlock := fun _ _ _ _ _ => pure [1]
  setORUStraw := fun _ _ s => s
  retrieveFeatureValues := fun _ _ s => s
  solutions := fun _ _ => []
  compare := fun _ _ _ _ => true

/-- The sheaf of that group. -/
def exampleSheaf (retrieval : ERetrieval) : Sheaf :=
  .plist [Straw.new.append
    (MatchedObject.ofObject 7 (SetOfMonads.empty.addMonad 1) none ⟨1, retrieval⟩)]

theorem rBlocks_retrievable_iff_example :
    (exampleSheaf .kRetrieve).Retrievable ∧ ¬ NothingMatched exampleEnv (exampleGroup .kRetrieve)
      (SetOfMonads.empty.addMonad 1) (SetOfMonads.empty.addMonad 1) maxMonad () := by
  have hrun : (rBlocks exampleEnv (exampleGroup .kRetrieve) (SetOfMonads.empty.addMonad 1)
      (SetOfMonads.empty.addMonad 1) maxMonad none true).run ()
        = some (exampleSheaf .kRetrieve, ()) := rfl
  obtain ⟨-, henough, hfail⟩ := rBlocks_retrievable_iff _ _ _ _ _ hrun
  refine ⟨henough (Or.inr (Or.inl rfl)) rfl, ?_⟩
  intro hnothing
  have hcontradiction := (hfail fun _ h => nomatch h).mpr hnothing
  exact Bool.noConfusion hcontradiction

/-- The `NORETRIEVE` object is in the sheaf. -/
theorem rBlocks_noRetrieve_group :
    ∃ sheaf s', (rBlocks exampleEnv (exampleGroup .kNoRetrieve) (SetOfMonads.empty.addMonad 1)
        (SetOfMonads.empty.addMonad 1) maxMonad none true).run () = some (sheaf, s') ∧
      ¬ sheaf.Retrievable := by
  refine ⟨exampleSheaf .kNoRetrieve, (), rfl, ?_⟩
  intro h
  obtain ⟨hfiltered, -⟩ := retrievable_plist_iff.mp h
  have hretrieve := (hfiltered _ List.mem_cons_self).2 _ List.mem_cons_self
  exact Bool.noConfusion hretrieve

end Example

/-! ## 3. Queries without `NORETRIEVE` in their unordered groups

Watching such a query changes nothing, so that whatever it returns is retrievable. -/

mutual

def ObjectBlock.groupsRetrieved : ObjectBlock C → Bool
  | .mk _ optBlocks => optBlocks.groupsRetrieved

def GapBlock.groupsRetrieved : GapBlock C → Bool
  | .mk _ _ optBlocks => optBlocks.groupsRetrieved

def OptBlocks.groupsRetrieved : OptBlocks C → Bool
  | .null => true
  | .blocks blocks => blocks.groupsRetrieved

def Block.groupsRetrieved : Block C → Bool
  | .gapBlock b => b.groupsRetrieved
  | .optGapBlock b => b.groupsRetrieved
  | .powerBlock _ => true
  | .objectBlock b => b.groupsRetrieved
  | .objectBlockNOTEXIST b => b.groupsRetrieved

def BlockString0.groupsRetrieved : BlockString0 C → Bool
  | .block b => b.groupsRetrieved
  | .blockString b => b.groupsRetrieved

def BlockString1.groupsRetrieved : BlockString1 C → Bool
  | .nonStar b => b.groupsRetrieved
  | .star b _ => b.groupsRetrieved

def BlockString2.groupsRetrieved : BlockString2 C → Bool
  | .blockString1 _ b => b.groupsRetrieved
  | .sequence _ b b' => b.groupsRetrieved && b'.groupsRetrieved

def BlockString.groupsRetrieved : BlockString C → Bool
  | .blockString2 b => b.groupsRetrieved
  | .or b b' => b.groupsRetrieved && b'.groupsRetrieved

def ObjectBlockString.groupsRetrieved : ObjectBlockString C → Bool
  | .objectBlock b => b.groupsRetrieved
  | .append bs b => bs.groupsRetrieved && b.groupsRetrieved

/-- Every unordered group has only object blocks that are to be retrieved. -/
def Blocks.groupsRetrieved : Blocks C → Bool
  | .blockString _ b => b.groupsRetrieved
  | .unorderedGroup bs => bs.isRetrieved && bs.groupsRetrieved

end

mutual

theorem watched_rObjectBlock : ∀ (b : ObjectBlock C), b.groupsRetrieved = true →
    Evaluator.rObjectBlock env watchedGroup b
      = Evaluator.rObjectBlock env (fun _ => rBlocksOfUnorderedGroup) b
  | .mk info optBlocks, h => by
    rw [ObjectBlock.groupsRetrieved] at h
    funext U Su Sm
    simp only [Evaluator.rObjectBlock, watched_rOptBlocks optBlocks h]

theorem watched_rGapBlock : ∀ (b : GapBlock C), b.groupsRetrieved = true →
    Evaluator.rGapBlock env watchedGroup b
      = Evaluator.rGapBlock env (fun _ => rBlocksOfUnorderedGroup) b
  | .mk retrieval obb optBlocks, h => by
    rw [GapBlock.groupsRetrieved] at h
    funext Su Sm emptyMo
    simp only [Evaluator.rGapBlock, watched_rOptBlocks optBlocks h]

theorem watched_rOptBlocks : ∀ (b : OptBlocks C), b.groupsRetrieved = true →
    Evaluator.rOptBlocks env watchedGroup b
      = Evaluator.rOptBlocks env (fun _ => rBlocksOfUnorderedGroup) b
  | .null, _ => by
    funext U Su maxRange
    simp only [Evaluator.rOptBlocks]
  | .blocks blocks, h => by
    rw [OptBlocks.groupsRetrieved] at h
    funext U Su maxRange
    simp only [Evaluator.rOptBlocks, watched_rBlocks blocks h]

theorem watched_rBlock : ∀ (b : Block C), b.groupsRetrieved = true →
    Evaluator.rBlock env watchedGroup b
      = Evaluator.rBlock env (fun _ => rBlocksOfUnorderedGroup) b
  | .gapBlock b, h => by
    rw [Block.groupsRetrieved] at h
    funext U Su Sm
    simp only [Evaluator.rBlock, watched_rGapBlock b h]
  | .optGapBlock b, h => by
    rw [Block.groupsRetrieved] at h
    funext U Su Sm
    simp only [Evaluator.rBlock, watched_rGapBlock b h]
  | .powerBlock power, _ => by
    funext U Su Sm
    simp only [Evaluator.rBlock]
  | .objectBlock b, h => by
    rw [Block.groupsRetrieved] at h
    funext U Su Sm
    simp only [Evaluator.rBlock, watched_rObjectBlock b h]
  | .objectBlockNOTEXIST (.mk info optBlocks), h => by
    rw [Block.groupsRetrieved, ObjectBlock.groupsRetrieved] at h
    funext U Su Sm
    simp only [Evaluator.rBlock, watched_rOptBlocks optBlocks h]

theorem watched_rBlockString0 : ∀ (b : BlockString0 C), b.groupsRetrieved = true →
    Evaluator.rBlockString0 env watchedGroup b
      = Evaluator.rBlockString0 env (fun _ => rBlocksOfUnorderedGroup) b
  | .block b, h => by
    rw [BlockString0.groupsRetrieved] at h
    funext U Su Sm maxRange
    simp only [Evaluator.rBlockString0, watched_rBlock b h]
  | .blockString b, h => by
    rw [BlockString0.groupsRetrieved] at h
    funext U Su Sm maxRange
    simp only [Evaluator.rBlockString0, watched_rBlockString b h]

theorem watched_rBlockString1 : ∀ (b : BlockString1 C), b.groupsRetrieved = true →
    Evaluator.rBlockString1 env watchedGroup b
      = Evaluator.rBlockString1 env (fun _ => rBlocksOfUnorderedGroup) b
  | .nonStar b, h => by
    rw [BlockString1.groupsRetrieved] at h
    funext U Su Sm maxRange
    simp only [Evaluator.rBlockString1, watched_rBlockString0 b h]
  | .star b starSOM, h => by
    rw [BlockString1.groupsRetrieved] at h
    funext U Su Sm maxRange
    simp only [Evaluator.rBlockString1, watched_rBlockString0 b h]

theorem watched_rBlockString2 : ∀ (b : BlockString2 C), b.groupsRetrieved = true →
    Evaluator.rBlockString2 env watchedGroup b
      = Evaluator.rBlockString2 env (fun _ => rBlocksOfUnorderedGroup) b
  | .blockString1 node b, h => by
    rw [BlockString2.groupsRetrieved] at h
    funext U Su Sm maxRange
    simp only [Evaluator.rBlockString2, watched_rBlockString1 b h]
  | .sequence node b (.blockString1 node' next), h => by
    rw [BlockString2.groupsRetrieved, Bool.and_eq_true] at h
    funext U Su Sm maxRange
    rw [Evaluator.rBlockString2, Evaluator.rBlockString2, watched_rBlockString1 b h.1,
      watched_rBlockString2 (.blockString1 node' next) h.2]
  | .sequence node b (.sequence node' next nextButOne), h => by
    rw [BlockString2.groupsRetrieved, Bool.and_eq_true] at h
    funext U Su Sm maxRange
    have hnextButOne : nextButOne.groupsRetrieved = true := by
      have hnext := h.2
      rw [BlockString2.groupsRetrieved, Bool.and_eq_true] at hnext
      exact hnext.2
    rw [Evaluator.rBlockString2, Evaluator.rBlockString2, watched_rBlockString1 b h.1,
      watched_rBlockString2 (.sequence node' next nextButOne) h.2,
      watched_rBlockString2 nextButOne hnextButOne]

theorem watched_rBlockString : ∀ (b : BlockString C), b.groupsRetrieved = true →
    Evaluator.rBlockString env watchedGroup b
      = Evaluator.rBlockString env (fun _ => rBlocksOfUnorderedGroup) b
  | .blockString2 b, h => by
    rw [BlockString.groupsRetrieved] at h
    funext U Su Sm maxRange
    simp only [Evaluator.rBlockString, watched_rBlockString2 b h]
  | .or b b', h => by
    rw [BlockString.groupsRetrieved, Bool.and_eq_true] at h
    funext U Su Sm maxRange
    simp only [Evaluator.rBlockString, watched_rBlockString2 b h.1, watched_rBlockString b' h.2]

theorem watched_rObjectBlockString : ∀ (b : ObjectBlockString C), b.groupsRetrieved = true →
    Evaluator.rObjectBlockString env watchedGroup b
      = Evaluator.rObjectBlockString env (fun _ => rBlocksOfUnorderedGroup) b
  | .objectBlock b, h => by
    rw [ObjectBlockString.groupsRetrieved] at h
    funext U Su bContinueExecution
    simp only [Evaluator.rObjectBlockString, watched_rObjectBlock b h]
  | .append bs b, h => by
    rw [ObjectBlockString.groupsRetrieved, Bool.and_eq_true] at h
    funext U Su bContinueExecution
    simp only [Evaluator.rObjectBlockString, watched_rObjectBlock b h.2,
      watched_rObjectBlockString bs h.1]

theorem watched_rBlocks : ∀ (b : Blocks C), b.groupsRetrieved = true →
    Evaluator.rBlocks env watchedGroup b
      = Evaluator.rBlocks env (fun _ => rBlocksOfUnorderedGroup) b
  | .blockString usingRange b, h => by
    rw [Blocks.groupsRetrieved] at h
    funext U Su maxRange pCallback bContinueExecution
    simp only [Evaluator.rBlocks, watched_rBlockString b h]
  | .unorderedGroup bs, h => by
    rw [Blocks.groupsRetrieved, Bool.and_eq_true] at h
    funext U Su maxRange pCallback bContinueExecution
    simp only [Evaluator.rBlocks, watched_rObjectBlockString bs h.2, watchedGroup, h.1,
      Bool.true_or, if_true]

end

/-- **A query without `NORETRIEVE` in its unordered groups** has only retrievable answers. -/
theorem rBlocks_retrievable (blocks : Blocks C) (h : blocks.groupsRetrieved = true)
    (U Su : SetOfMonads) (maxRange : Int) (pCallback : Option (MQLResultCallback σ))
    (bContinueExecution : Bool) :
    Ensures (rBlocks env blocks U Su maxRange pCallback bContinueExecution)
      Sheaf.Retrievable := by
  unfold rBlocks
  rw [← watched_rBlocks blocks h]
  exact ensures_rBlocks blocks U Su maxRange pCallback bContinueExecution

/-- Such a query meets the condition of `rBlocks_retrievable_iff` in all runs. -/
theorem undisturbed_of_groupsRetrieved (blocks : Blocks C) (h : blocks.groupsRetrieved = true)
    (maxRange : Int) (pCallback : Option (MQLResultCallback σ)) (s : σ) :
    Undisturbed env blocks U Su maxRange pCallback s := by
  cases blocks with
  | blockString usingRange bs =>
    exact congrArg (fun f => (f U Su maxRange pCallback true).run s)
      (watched_rBlocks (.blockString usingRange bs) h)
  | unorderedGroup bs =>
    rw [Blocks.groupsRetrieved, Bool.and_eq_true] at h
    exact congrArg (fun f => (f U Su true).run s) (watched_rObjectBlockString bs h.2)

end Exact

end Emdros
