/-
# From where to where a string of blocks matches

The last monads that a string of blocks can have when it is tried at a monad, said of the blocks and
the data alone: an object matches from its first monad to its last one, a gap likewise, a block that
is skipped ends right before the monad where it was tried, and strings put these one behind the
other.  Behind a power block the next part is tried at the start monads of `getSMI` up to the upper
limit; nothing is said of the lower one, since the code does not look at it.

Whether an object satisfies its block can depend on what the object references of the query refer to
at the time.  `Passes` is that it does so in some state, `Fails` that it does not in some state, and
a block is `Settled` if none of its objects does both: always without object references.

So every straw that the evaluator returns has one of the last monads of `Spans`, whatever the state
was, and if the blocks are settled there is a straw for each of them (`finds_rBlockString`).  What
goes wrong in a string of blocks can then be said without a run.
-/
import Emdros.MQL.NotExist

namespace Emdros

open Partial

section Spans

variable {C S σ : Type} (env : QueryEnv C S σ)
  (rGroup : ObjectBlockString C → Option (MQLResultCallback σ) → Bool →
    List (List Straw) → Eval σ Sheaf)
  (e : StartMonadEnv) (U Su : SetOfMonads) (maxRange : Int)

/-! ## 1. Objects and gaps -/

/-- The inner sheaf of an object. -/
def ObjectBlock.innerOf : ObjectBlock C → MonadedObject → Eval σ (Option Sheaf)
  | .mk _ optBlocks, o => innerSheaf optBlocks.isNull do
    let Uping ← ofOption (SetOfMonads.empty.add o.first o.last)
    Evaluator.rOptBlocks env rGroup optBlocks Uping o.monads maxMonad

/-- The inner sheaf of a gap. -/
def GapBlock.innerOf : GapBlock C → SetOfMonads → Eval σ (Option Sheaf)
  | .mk _ _ optBlocks, somn =>
    innerSheaf optBlocks.isNull (Evaluator.rOptBlocks env rGroup optBlocks somn somn maxMonad)

/-- The inner blocks have a match. -/
def InnerPasses (inner : Eval σ (Option Sheaf)) : Prop :=
  ∃ sheaf, Returns inner sheaf ∧ sheaf.any Sheaf.isFail = false

def InnerFails (inner : Eval σ (Option Sheaf)) : Prop :=
  ∃ sheaf, Returns inner sheaf ∧ sheaf.any Sheaf.isFail = true

/-- The object satisfies the block, in some state. -/
structure ObjectBlockInfo.Passes (info : ObjectBlockInfo C)
    (inner : MonadedObject → Eval σ (Option Sheaf)) (o : MonadedObject) : Prop where
  firstLast : obeysFirstLast info.firstLast o Su = true
  related : info.msrc.exec o.monads U Su = some true
  features : Returns (rFeatures env info o) true
  inner : InnerPasses (inner o)

/-- It does not, in some state. -/
def ObjectBlockInfo.Fails (info : ObjectBlockInfo C)
    (inner : MonadedObject → Eval σ (Option Sheaf)) (o : MonadedObject) : Prop :=
  obeysFirstLast info.firstLast o Su = false ∨ info.msrc.exec o.monads U Su = some false ∨
    Returns (rFeatures env info o) false ∨ InnerFails (inner o)

/-! ## 2. Where blocks end -/

def ObjectBlock.Spans : ObjectBlock C → Int → Int → Prop
  | .mk info optBlocks, m, last => ∃ o ∈ objectsStarting info m,
    info.Passes env U Su (ObjectBlock.innerOf env rGroup (.mk info optBlocks)) o ∧
      last = max o.monads.last 0

def GapBlock.Spans (b : GapBlock C) (m last : Int) : Prop :=
  ∃ gapLast somn, Su.gapExists m = some (some gapLast) ∧
    SetOfMonads.empty.add m gapLast = some somn ∧ InnerPasses (b.innerOf env rGroup somn) ∧
    last = somn.last

/-- No object need satisfy the block at the start monads of `R_block`. -/
def ObjectBlock.NothingThere : ObjectBlock C → Int → Prop
  | .mk info optBlocks, m =>
    ∀ smi, (ObjectBlock.mk info optBlocks).getSMI e true (notExistSet info m Su)
        (notExistStart info U m) false = some smi →
      ∀ s ∈ smi.monads, ∀ o ∈ objectsStarting info s,
        info.Fails env (notExistSet info m U) (notExistSet info m Su)
          (ObjectBlock.innerOf env rGroup (.mk info optBlocks)) o

/-- Where a block ends that is tried at a monad. -/
def Block.Spans : Block C → Int → Int → Prop
  | .gapBlock b, m, last => b.Spans env rGroup Su m last
  | .optGapBlock b, m, last => b.Spans env rGroup Su m last ∨
    Su.gapExists m = some none ∧ last = (Straw.skipped m).last
  | .powerBlock _, _, _ => False
  | .objectBlock b, m, last => b.Spans env rGroup U Su m last
  | .objectBlockNOTEXIST b, m, last =>
    b.NothingThere env rGroup e U Su m ∧ last = (Straw.skipped m).last

/-- Whether an object or a gap satisfies the block does not depend on the state. -/
def Block.Settled : Block C → Prop
  | .gapBlock b => ∀ somn, ¬ (InnerPasses (b.innerOf env rGroup somn) ∧
    InnerFails (b.innerOf env rGroup somn))
  | .optGapBlock b => ∀ somn, ¬ (InnerPasses (b.innerOf env rGroup somn) ∧
    InnerFails (b.innerOf env rGroup somn))
  | .powerBlock _ => True
  | .objectBlock (.mk info optBlocks) => ∀ U Su, ∀ o,
    ¬ (info.Passes env U Su (ObjectBlock.innerOf env rGroup (.mk info optBlocks)) o ∧
      info.Fails env U Su (ObjectBlock.innerOf env rGroup (.mk info optBlocks)) o)
  | .objectBlockNOTEXIST (.mk info optBlocks) => ∀ U Su, ∀ o,
    ¬ (info.Passes env U Su (ObjectBlock.innerOf env rGroup (.mk info optBlocks)) o ∧
      info.Fails env U Su (ObjectBlock.innerOf env rGroup (.mk info optBlocks)) o)

variable {env rGroup} in
/-- Without inner blocks it is settled by the features whether an object satisfies its block. -/
theorem Block.settled_of_features {info : ObjectBlockInfo C}
    (h : ∀ o b b', Returns (rFeatures env info o) b → Returns (rFeatures env info o) b' → b = b') :
    (Block.objectBlock (.mk info .null)).Settled env rGroup := by
  rintro U Su o ⟨hpasses, hobeys | hrelated | hfeatures | ⟨sheaf, hsheaf, hfail⟩⟩
  · exact Bool.noConfusion (hpasses.firstLast.symm.trans hobeys)
  · exact Bool.noConfusion (Option.some.inj (hpasses.related.symm.trans hrelated))
  · exact Bool.noConfusion (h o _ _ hpasses.features hfeatures)
  · cases hsheaf.of_pure
    cases hfail

/-! ## 3. Where strings end -/

/-- The upper limit of `R_block_string2_power_block` behind a last monad. -/
def Power.upper (power : Power) (last : Int) : Int :=
  let Suping := rRestrict Su (last + 1 + power.low maxRange)
  if power.high maxRange = maxMonad then Suping.last
  else min (last + 1 + power.high maxRange) Suping.last

/-- Something is left of the universe and the substrate behind the lower limit. -/
def Power.Leaves (power : Power) (last : Int) : Prop :=
  (rRestrict U (last + 1 + power.low maxRange)).isEmpty = false ∧
    (rRestrict Su (last + 1 + power.low maxRange)).isEmpty = false

/-- The string is tried at a monad behind a power block. -/
def BlockString2.StartsBehind (b : BlockString2 C) (power : Power) (last s : Int) : Prop :=
  power.Leaves U Su maxRange last ∧
    ∃ smi, b.getBlockString1.getSMI e U Su (last + 1 + power.low maxRange) = some smi ∧
      s ∈ smi.monads.takeWhile fun Smping => Smping ≤ power.upper Su maxRange last

mutual

/-- Where a string of blocks ends that is tried at a monad. -/
def BlockString0.Spans : BlockString0 C → Int → Int → Prop
  | .block b, m, last => b.Spans env rGroup e U Su m last
  | .blockString b, m, last => b.Spans m last

def BlockString1.Spans : BlockString1 C → Int → Int → Prop
  | .nonStar b, m, last => b.Spans m last
  | .star b starSOM, m, last => 0 ∈ starSOM.mem ∧ last = (Straw.skipped m).last ∨
    ∃ n : Nat, 1 ≤ n ∧ (n : Int) ∈ starSOM.mem ∧ Repeats (fun m last => b.Spans m last) m n last

def BlockString2.Spans : BlockString2 C → Int → Int → Prop
  | .blockString1 _ b, m, last => b.Spans m last
  | .sequence _ b (.blockString1 node next), m, last =>
    next.getPowerBlock = none ∧
      ∃ d, b.Spans m d ∧ (BlockString2.blockString1 node next).Spans (d + 1) last
  | .sequence _ b (.sequence node next nextButOne), m, last =>
    ∃ d, b.Spans m d ∧
      match next.getPowerBlock with
      | some power => ∃ s, nextButOne.StartsBehind e U Su maxRange power d s ∧
          nextButOne.Spans s last
      | none => (BlockString2.sequence node next nextButOne).Spans (d + 1) last

def BlockString.Spans : BlockString C → Int → Int → Prop
  | .blockString2 b, m, last => b.Spans m last
  | .or b rest, m, last => b.Spans m last ∨ rest.Spans m last

end

mutual

/-- The sets of all stars are star sets. -/
def BlockString0.StarSets : BlockString0 C → Prop
  | .block _ => True
  | .blockString b => b.StarSets

def BlockString1.StarSets : BlockString1 C → Prop
  | .nonStar b => b.StarSets
  | .star b starSOM => starSOM.IsStarSet ∧ b.StarSets

def BlockString2.StarSets : BlockString2 C → Prop
  | .blockString1 _ b => b.StarSets
  | .sequence _ b rest => b.StarSets ∧ rest.StarSets

def BlockString.StarSets : BlockString C → Prop
  | .blockString2 b => b.StarSets
  | .or b rest => b.StarSets ∧ rest.StarSets

end

/-- The start monads behind power blocks and of `NOTEXIST` blocks are those of `getSMI`. -/
structure QueryEnv.StartsBy (env : QueryEnv C S σ) (e : StartMonadEnv) : Prop where
  blockString1 : ∀ b U Su Sm, env.getSMIBlockString1 b U Su Sm
    = ofOption ((b.getSMI e U Su Sm).map StartMonadIterator.monads)
  notExist : ∀ b U Su Sm, env.getSMIObjectBlock b U Su Sm false
    = ofOption ((b.getSMI e true Su Sm false).map StartMonadIterator.monads)

theorem QueryEnv.withStartMonads_startsBy : (env.withStartMonads e).StartsBy e where
  blockString1 _ _ _ _ := rfl
  notExist _ _ _ _ := rfl

variable {env rGroup e U Su maxRange}

/-! ## 4. What the evaluator finds -/

section Blocks

variable {info : ObjectBlockInfo C} {optBlocks : OptBlocks C} {m : Int}

/-- What an object gives. -/
theorem returns_objectStraws {o : MonadedObject} {los : List Straw}
    (h : Returns (objectStraws env U Su info optBlocks.isNull
      (fun U Su => Evaluator.rOptBlocks env rGroup optBlocks U Su maxMonad) o) los) :
    (los = [] ∧ info.Fails env U Su (ObjectBlock.innerOf env rGroup (.mk info optBlocks)) o) ∨
      ∃ pInner, los = [Straw.new.append (MatchedObject.ofObject o.idD o.monads pInner info.obb)] ∧
        info.Passes env U Su (ObjectBlock.innerOf env rGroup (.mk info optBlocks)) o := by
  rw [objectStraws] at h
  obtain ⟨bDoObject, hdo, h⟩ := h.of_bind
  have htest : (bDoObject = false → obeysFirstLast info.firstLast o Su = false ∨
      info.msrc.exec o.monads U Su = some false ∨ Returns (rFeatures env info o) false) ∧
      (bDoObject = true → obeysFirstLast info.firstLast o Su = true ∧
        info.msrc.exec o.monads U Su = some true ∧ Returns (rFeatures env info o) true) := by
    rw [doObject] at hdo
    rcases hdo.of_ite with ⟨hobeys, hdo⟩ | ⟨hobeys, hdo⟩
    · obtain ⟨bRelated, hrelated, hdo⟩ := hdo.of_bind
      have hexec := hrelated.of_ofOption
      rcases hdo.of_ite with ⟨hyes, hdo⟩ | ⟨hno, hdo⟩
      · have hfeatures := hdo.of_modify
        rw [hyes] at hexec
        exact ⟨fun h => Or.inr (Or.inr (h ▸ hfeatures)), fun h => ⟨hobeys, hexec, h ▸ hfeatures⟩⟩
      · rw [hdo.of_pure]
        rw [Bool.eq_false_iff.mpr hno] at hexec
        exact ⟨fun _ => Or.inr (Or.inl hexec), fun h => absurd h Bool.false_ne_true⟩
    · rw [hdo.of_pure]
      exact ⟨fun _ => Or.inl (Bool.eq_false_iff.mpr hobeys), fun h => absurd h Bool.false_ne_true⟩
  rcases h.of_ite with ⟨hyes, h⟩ | ⟨hno, h⟩
  · obtain ⟨pInner, hinner, h⟩ := h.of_bind
    obtain ⟨hobeys, hexec, hfeatures⟩ := htest.2 hyes
    rcases h.of_ite with ⟨hfail, h⟩ | ⟨hfound, h⟩
    · exact Or.inl ⟨h.of_pure, Or.inr (Or.inr (Or.inr ⟨pInner, hinner, hfail⟩))⟩
    · exact Or.inr ⟨pInner, h.of_pure,
        hobeys, hexec, hfeatures, pInner, hinner, Bool.eq_false_iff.mpr hfound⟩
  · refine Or.inl ⟨h.of_pure, ?_⟩
    rcases htest.1 (Bool.eq_false_iff.mpr hno) with h | h | h
    · exact Or.inl h
    · exact Or.inr (Or.inl h)
    · exact Or.inr (Or.inr (Or.inl h))

/-- The straw of an object ends with it. -/
theorem last_ofObject (idD : Int) (monads : SetOfMonads) (pInner : Option Sheaf)
    (obb : ObjectBlockBase) :
    (Straw.new.append (MatchedObject.ofObject idD monads pInner obb)).last = max monads.last 0 := by
  show (if monads.last > 0 then monads.last else 0) = max monads.last 0
  split <;> omega

theorem finds_rObjectBlock {los : List Straw}
    (h : Returns (Evaluator.rObjectBlock env rGroup (.mk info optBlocks) U Su m) los) :
    Finds ((ObjectBlock.mk info optBlocks).Spans env rGroup U Su m)
      ((Block.objectBlock (.mk info optBlocks)).Settled env rGroup) los := by
  rw [Evaluator.rObjectBlock, rObjectBlockInst_eq] at h
  constructor
  · intro straw hstraw
    obtain ⟨o, ho, straws, hstraws, hmem⟩ := h.mem_collect straw hstraw
    rcases returns_objectStraws hstraws with ⟨rfl, -⟩ | ⟨pInner, rfl, hpasses⟩
    · cases hmem
    · rw [List.mem_singleton.mp hmem, last_ofObject]
      exact ⟨rfl, o, ho, hpasses, rfl⟩
  · rintro hsettled last ⟨o, ho, hpasses, rfl⟩
    obtain ⟨straws, hstraws, hsub⟩ := h.collect_part o ho
    rcases returns_objectStraws hstraws with ⟨-, hfails⟩ | ⟨pInner, rfl, -⟩
    · exact absurd ⟨hpasses, hfails⟩ (hsettled U Su o)
    · exact ⟨_, hsub (List.mem_singleton_self _), last_ofObject _ _ _ _⟩

theorem skipped_isEmpty (m : Int) : (Straw.skipped m).isEmpty = false := rfl

theorem finds_rGapBlock {b : GapBlock C} {emptyMo : Bool} {pMO : Option MatchedObject}
    (h : Returns (Evaluator.rGapBlock env rGroup b Su m emptyMo) pMO) :
    Finds (fun last => b.Spans env rGroup Su m last ∨
        emptyMo = true ∧ Su.gapExists m = some none ∧ last = (Straw.skipped m).last)
      ((Block.gapBlock b).Settled env rGroup) (losOfGap pMO) := by
  obtain ⟨retrieval, obb, optBlocks⟩ := b
  rw [Evaluator.rGapBlock, rGap] at h
  obtain ⟨gap, hgap, h⟩ := h.of_bind
  replace hgap := hgap.of_ofOption
  cases gap with
  | none =>
    have hno : ∀ last, ¬ GapBlock.Spans env rGroup Su (.mk retrieval obb optBlocks) m last := by
      rintro last ⟨gapLast, somn, hsome, -⟩
      cases hgap.symm.trans hsome
    rcases h.of_ite with ⟨hempty, h⟩ | ⟨hempty, h⟩
    · rw [h.of_pure]
      refine Finds.singleton (skipped_isEmpty m) fun last => ?_
      rw [or_iff_right (hno last), and_iff_right hempty, and_iff_right hgap]
      rfl
    · rw [h.of_pure]
      exact Finds.nil fun last hlast => hlast.elim (hno last) fun h => hempty h.1
  | some gapLast =>
    have hskip : ¬ Su.gapExists m = some none := by
      rw [hgap]
      simp
    obtain ⟨somn, hsomn, h⟩ := h.of_bind
    replace hsomn := hsomn.of_ofOption
    have hnonneg : 0 ≤ somn.last := by
      obtain ⟨mse, -, rfl⟩ := Option.map_eq_some_iff.mp hsomn
      show 0 ≤ if mse.lastM > 0 then mse.lastM else 0
      split <;> omega
    obtain ⟨pInner, hinner, h⟩ := h.of_bind
    rcases h.of_ite with ⟨hfail, h⟩ | ⟨hfound, h⟩
    · rw [h.of_pure]
      refine ⟨fun _ hmem => absurd hmem List.not_mem_nil, fun hsettled last hlast => ?_⟩
      rcases hlast with ⟨gapLast', somn', hgap', hsomn', hpasses, -⟩ | ⟨-, hnone, -⟩
      · cases hgap.symm.trans hgap'
        cases hsomn.symm.trans hsomn'
        exact absurd ⟨hpasses, pInner, hinner, hfail⟩ (hsettled somn)
      · exact absurd hnone hskip
    · rw [h.of_pure]
      refine Finds.singleton rfl fun last => ?_
      have hlast : ∀ bRetrieve bFocus, (Straw.new.append
          (MatchedObject.ofGap somn obb bRetrieve bFocus pInner)).last = somn.last := by
        intro bRetrieve bFocus
        show (if somn.last > 0 then somn.last else 0) = somn.last
        split <;> omega
      rw [hlast]
      constructor
      · rintro (⟨gapLast', somn', hgap', hsomn', -, rfl⟩ | ⟨-, hnone, -⟩)
        · cases hgap.symm.trans hgap'
          cases hsomn.symm.trans hsomn'
          rfl
        · exact absurd hnone hskip
      · rintro rfl
        exact Or.inl ⟨gapLast, somn, hgap, hsomn,
          ⟨pInner, hinner, Bool.eq_false_iff.mpr hfound⟩, rfl⟩

theorem returns_itWasThere {f : Int → Eval σ (List Straw)} : ∀ {smi : List Int} {b : Bool},
    Returns (itWasThere f smi) b → (b = false → ∀ s ∈ smi, Returns (f s) []) ∧
      (b = true → ∃ s ∈ smi, ∃ los, Returns (f s) los ∧ los ≠ [])
  | [], b, h => by
    rw [itWasThere] at h
    simp [h.of_pure]
  | s :: smi, b, h => by
    rw [itWasThere] at h
    obtain ⟨los, hlos, h⟩ := h.of_bind
    rcases h.of_ite with ⟨hfound, h⟩ | ⟨hempty, h⟩
    · rw [h.of_pure]
      refine ⟨fun h => Bool.noConfusion h, fun _ => ⟨s, List.mem_cons_self, los, hlos, ?_⟩⟩
      simpa using hfound
    · obtain ⟨hnone, hsome⟩ := returns_itWasThere h
      have hnil : los = [] := by simpa using hempty
      refine ⟨fun hb => List.forall_mem_cons.mpr ⟨hnil ▸ hlos, hnone hb⟩, fun hb => ?_⟩
      obtain ⟨s', hs', hgives⟩ := hsome hb
      exact ⟨s', List.mem_cons_of_mem s hs', hgives⟩

/-- The placeholder is returned if nothing is there, and else nothing is. -/
theorem finds_rNOTEXIST (hstarts : env.StartsBy e) {los : List Straw}
    (h : Returns (Evaluator.rBlock env rGroup (.objectBlockNOTEXIST (.mk info optBlocks)) U Su m)
      los) :
    Finds ((Block.objectBlockNOTEXIST (.mk info optBlocks)).Spans env rGroup e U Su m)
      ((Block.objectBlockNOTEXIST (.mk info optBlocks)).Settled env rGroup) los := by
  rw [Evaluator.rBlock, rNOTEXIST] at h
  change Returns (env.getSMIObjectBlock (.mk info optBlocks) (notExistSet info m U)
    (notExistSet info m Su) (notExistStart info U m) false >>= _) los at h
  rw [hstarts.notExist] at h
  obtain ⟨monads, hmonads, h⟩ := h.of_bind
  obtain ⟨smi, hsmi, rfl⟩ := Option.map_eq_some_iff.mp hmonads.of_ofOption
  obtain ⟨bItWasThere, hthere, h⟩ := h.of_bind
  obtain ⟨hnone, hsome⟩ := returns_itWasThere hthere
  rcases h.of_ite with ⟨hyes, h⟩ | ⟨hno, h⟩
  · rw [h.of_pure]
    refine ⟨fun _ hmem => absurd hmem List.not_mem_nil, ?_⟩
    rintro hsettled last ⟨hnothing, -⟩
    obtain ⟨s, hs, straws, hstraws, hne⟩ := hsome hyes
    obtain ⟨straw, hstraw⟩ := List.exists_mem_of_ne_nil straws hne
    rw [rObjectBlockInst_eq] at hstraws
    obtain ⟨o, ho, straws', hstraws', hmem⟩ := hstraws.mem_collect straw hstraw
    rcases returns_objectStraws hstraws' with ⟨rfl, -⟩ | ⟨-, -, hpasses⟩
    · cases hmem
    · exact absurd ⟨hpasses, hnothing smi hsmi s hs o ho⟩ (hsettled _ _ o)
  · rw [h.of_pure]
    refine Finds.singleton (skipped_isEmpty m) fun last => and_iff_right ?_
    intro smi' hsmi' s hs o ho
    cases hsmi.symm.trans hsmi'
    have hnil := hnone (Bool.eq_false_iff.mpr hno) s hs
    rw [rObjectBlockInst_eq] at hnil
    obtain ⟨straws, hstraws, hsub⟩ := hnil.collect_part o ho
    rcases returns_objectStraws hstraws with ⟨-, hfails⟩ | ⟨pInner, rfl, -⟩
    · exact hfails
    · cases hsub (List.mem_singleton_self _)

theorem finds_rBlock (hstarts : env.StartsBy e) : ∀ {b : Block C} {los : List Straw},
    Returns (Evaluator.rBlock env rGroup b U Su m) los →
      Finds (b.Spans env rGroup e U Su m) (b.Settled env rGroup) los
  | .gapBlock b, los, h => by
    rw [Evaluator.rBlock] at h
    obtain ⟨pMO, hpMO, rfl⟩ := h.of_bind_pure
    exact (finds_rGapBlock hpMO).congr (fun last => by simp [Block.Spans]) id
  | .optGapBlock b, los, h => by
    rw [Evaluator.rBlock] at h
    obtain ⟨pMO, hpMO, rfl⟩ := h.of_bind_pure
    exact (finds_rGapBlock hpMO).congr (fun last => by simp [Block.Spans]) id
  | .powerBlock _, los, h => by
    rw [Evaluator.rBlock] at h
    exact h.not_failure.elim
  | .objectBlock (.mk info optBlocks), los, h => by
    rw [Evaluator.rBlock] at h
    exact finds_rObjectBlock h
  | .objectBlockNOTEXIST (.mk info optBlocks), los, h => finds_rNOTEXIST hstarts h

end Blocks

/-! ## 5. Strings -/

section Strings

variable {m : Int} {rFirst : Eval σ (List Straw)} {P : Int → Prop} {settled settled' : Prop}
  {node : Nat}

/-- The test of `R_block_string2_power_block`. -/
theorem leaves_iff {power : Power} {d : Int} :
    ((!(rRestrict U (d + 1 + power.low maxRange)).isEmpty &&
      !(rRestrict Su (d + 1 + power.low maxRange)).isEmpty) = true) ↔
        power.Leaves U Su maxRange d := by
  simp [Power.Leaves]

/-- What is put behind a straw. -/
theorem mem_prependToAll {front straw : Straw} {los : List Straw} :
    straw ∈ prependToAll front los ↔
      ∃ behind ∈ los, behind.isEmpty = false ∧ behind.prepend front = straw := by
  simp only [prependToAll, List.mem_map, List.mem_filter, Bool.not_eq_true', and_assoc]

theorem prepend_isEmpty {front straw : Straw} (h : straw.isEmpty = false) :
    (straw.prepend front).isEmpty = false := by
  rw [Straw.isEmpty, List.isEmpty_eq_false_iff] at h ⊢
  rw [Straw.prepend_list]
  exact List.append_ne_nil_of_right_ne_nil _ h

/-- What is returned from behind a block that is not followed by a power block. -/
theorem returns_nonPowerChain {α : Type} {prepend : Straw → List α → List α}
    {next : Int → Eval σ (List α)} {as : List α}
    (h : Returns (nonPowerChain env node rFirst prepend next) as) :
    ∃ fronts, Returns rFirst fronts ∧
      (∀ a ∈ as, ∃ front ∈ fronts, ∃ as', Returns (next (front.last + 1)) as' ∧
        a ∈ prepend front as') ∧
      ∀ front ∈ fronts, ∃ as', Returns (next (front.last + 1)) as' ∧ prepend front as' ⊆ as := by
  rw [nonPowerChain] at h
  obtain ⟨fronts, hfronts, h⟩ := h.of_bind
  refine ⟨fronts, hfronts, fun a ha => ?_, fun front hfront => ?_⟩
  · obtain ⟨front, hfront, part, hpart, hmem⟩ := h.mem_collect a ha
    obtain ⟨as', has', rfl⟩ := hpart.of_modify.of_bind_pure
    exact ⟨front, hfront, as', has', hmem⟩
  · obtain ⟨part, hpart, hsub⟩ := h.collect_part front hfront
    obtain ⟨as', has', rfl⟩ := hpart.of_modify.of_bind_pure
    exact ⟨as', has', hsub⟩

/-- What is returned from behind a power block. -/
theorem returns_powerChain {α : Type} {prepend : Straw → List α → List α} {power : Power}
    {b : BlockString2 C} (hstarts : env.StartsBy e) {next : Int → Eval σ (List α)} {as : List α}
    (h : Returns (powerChain env U Su maxRange node power rFirst
      (fun Sm => env.getSMIBlockString1 b.getBlockString1 U Su Sm) prepend next) as) :
    ∃ fronts, Returns rFirst fronts ∧
      (∀ a ∈ as, ∃ front ∈ fronts, ∃ s, b.StartsBehind e U Su maxRange power front.last s ∧
        ∃ as', Returns (next s) as' ∧ a ∈ prepend front as') ∧
      ∀ front ∈ fronts, power.Leaves U Su maxRange front.last →
        ∃ smi, b.getBlockString1.getSMI e U Su (front.last + 1 + power.low maxRange) = some smi ∧
          ∀ s, b.StartsBehind e U Su maxRange power front.last s →
            ∃ as', Returns (next s) as' ∧ prepend front as' ⊆ as := by
  rw [powerChain] at h
  obtain ⟨fronts, hfronts, h⟩ := h.of_bind
  refine ⟨fronts, hfronts, fun a ha => ?_, fun front hfront hrest => ?_⟩
  · obtain ⟨front, hfront, part, hpart, hmem⟩ := h.mem_collect a ha
    rcases hpart.of_modify.of_ite with ⟨hrest, hpart⟩ | ⟨-, hpart⟩
    · rw [hstarts.blockString1] at hpart
      obtain ⟨monads, hmonads, hpart⟩ := hpart.of_bind
      obtain ⟨smi, hsmi, rfl⟩ := Option.map_eq_some_iff.mp hmonads.of_ofOption
      obtain ⟨s, hs, part', hpart', hmem⟩ := hpart.mem_collect a hmem
      obtain ⟨as', has', rfl⟩ := hpart'.of_bind_pure
      exact ⟨front, hfront, s, ⟨leaves_iff.mp hrest, smi, hsmi, hs⟩, as', has', hmem⟩
    · rw [hpart.of_pure] at hmem
      cases hmem
  · obtain ⟨part, hpart, hsub⟩ := h.collect_part front hfront
    rcases hpart.of_modify.of_ite with ⟨-, hpart⟩ | ⟨hnot, -⟩
    · rw [hstarts.blockString1] at hpart
      obtain ⟨monads, hmonads, hpart⟩ := hpart.of_bind
      obtain ⟨smi, hsmi, rfl⟩ := Option.map_eq_some_iff.mp hmonads.of_ofOption
      refine ⟨smi, hsmi, ?_⟩
      rintro s ⟨-, smi', hsmi', hs⟩
      cases hsmi.symm.trans hsmi'
      obtain ⟨part', hpart', hsub'⟩ := hpart.collect_part s hs
      obtain ⟨as', has', rfl⟩ := hpart'.of_bind_pure
      exact ⟨as', has', fun a ha => hsub (hsub' ha)⟩
    · exact absurd (leaves_iff.mpr hrest) hnot

/-- A block that is not followed by a power block. -/
theorem finds_nonPower {Q : Int → Int → Prop} {next : Int → Eval σ (List Straw)}
    (hfirst : ∀ los, Returns rFirst los → Finds P settled los)
    (hnext : ∀ m los, Returns (next m) los → Finds (Q m) settled' los) {los : List Straw}
    (h : Returns (nonPowerChain env node rFirst prependToAll next) los) :
    Finds (fun last => ∃ d, P d ∧ Q (d + 1) last) (settled ∧ settled') los := by
  obtain ⟨fronts, hfronts, hof, hall⟩ := returns_nonPowerChain h
  have hfinds := hfirst fronts hfronts
  constructor
  · intro straw hstraw
    obtain ⟨front, hfront, behind, hbehind, hmem⟩ := hof straw hstraw
    obtain ⟨straw', hstraw', hne, rfl⟩ := mem_prependToAll.mp hmem
    exact ⟨prepend_isEmpty hne, front.last, (hfinds.sound front hfront).2,
      ((hnext _ _ hbehind).sound straw' hstraw').2⟩
  · rintro ⟨hs, hs'⟩ last ⟨d, hd, hlast⟩
    obtain ⟨front, hfront, rfl⟩ := hfinds.complete hs d hd
    obtain ⟨behind, hbehind, hsub⟩ := hall front hfront
    obtain ⟨straw, hstraw, rfl⟩ := (hnext _ _ hbehind).complete hs' last hlast
    exact ⟨straw.prepend front, hsub (mem_prependToAll.mpr ⟨straw, hstraw,
      ((hnext _ _ hbehind).sound straw hstraw).1, rfl⟩), rfl⟩

/-- A block that is followed by a power block, and a string behind that. -/
theorem finds_power {power : Power} {b : BlockString2 C} (hstarts : env.StartsBy e)
    {next : Int → Eval σ (List Straw)} {Q : Int → Int → Prop}
    (hfirst : ∀ los, Returns rFirst los → Finds P settled los)
    (hnext : ∀ m los, Returns (next m) los → Finds (Q m) settled' los) {los : List Straw}
    (h : Returns (powerChain env U Su maxRange node power rFirst
      (fun Sm => env.getSMIBlockString1 b.getBlockString1 U Su Sm) prependToAll next) los) :
    Finds (fun last => ∃ d, P d ∧ ∃ s, b.StartsBehind e U Su maxRange power d s ∧ Q s last)
      (settled ∧ settled') los := by
  obtain ⟨fronts, hfronts, hof, hall⟩ := returns_powerChain hstarts h
  have hfinds := hfirst fronts hfronts
  constructor
  · intro straw hstraw
    obtain ⟨front, hfront, s, hs, behind, hbehind, hmem⟩ := hof straw hstraw
    obtain ⟨straw', hstraw', hne, rfl⟩ := mem_prependToAll.mp hmem
    exact ⟨prepend_isEmpty hne, front.last, (hfinds.sound front hfront).2, s, hs,
      ((hnext _ _ hbehind).sound straw' hstraw').2⟩
  · rintro ⟨hs, hs'⟩ last ⟨d, hd, s, hstart, hlast⟩
    obtain ⟨front, hfront, rfl⟩ := hfinds.complete hs d hd
    obtain ⟨-, -, hnexts⟩ := hall front hfront hstart.1
    obtain ⟨behind, hbehind, hsub⟩ := hnexts s hstart
    obtain ⟨straw, hstraw, rfl⟩ := (hnext _ _ hbehind).complete hs' last hlast
    exact ⟨straw.prepend front, hsub (mem_prependToAll.mpr ⟨straw, hstraw,
      ((hnext _ _ hbehind).sound straw hstraw).1, rfl⟩), rfl⟩

/-- With nothing behind it, a power block finds nothing. -/
theorem finds_nothing {power : Power} {los : List Straw}
    (h : Returns (powerChain env U Su maxRange node power rFirst (fun _ => failure) prependToAll
      fun _ => failure) los) : los = [] := by
  rw [powerChain] at h
  obtain ⟨fronts, -, h⟩ := h.of_bind
  refine List.eq_nil_iff_forall_not_mem.mpr fun straw hstraw => ?_
  obtain ⟨front, -, straws, hstraws, hmem⟩ := h.mem_collect straw hstraw
  rcases hstraws.of_modify.of_ite with ⟨-, hstraws⟩ | ⟨-, hstraws⟩
  · obtain ⟨smi, hsmi, -⟩ := hstraws.of_bind
    exact hsmi.not_failure
  · rw [hstraws.of_pure] at hmem
    cases hmem

/-- What an `OR` returns is what both its parts have returned. -/
theorem returns_orJoin {x y : Eval σ (List Straw)} {los : List Straw}
    (h : Returns (orJoin x y) los) :
    ∃ los₁ los₂, Returns x los₁ ∧ Returns y los₂ ∧ los = los₁ ++ los₂ := by
  rw [orJoin] at h
  obtain ⟨los₁, h₁, h⟩ := h.of_bind
  obtain ⟨los₂, h₂, h⟩ := h.of_bind
  refine ⟨los₁, los₂, h₁, h₂, ?_⟩
  rcases h.of_ite with ⟨hempty, h⟩ | ⟨-, h⟩
  · rw [h.of_pure, List.isEmpty_iff.mp hempty, List.nil_append]
  · rcases h.of_ite with ⟨hempty, h⟩ | ⟨-, h⟩
    · rw [h.of_pure, List.isEmpty_iff.mp hempty, List.append_nil]
    · exact h.of_pure

mutual

theorem finds_rBlockString0 (hstarts : env.StartsBy e) : ∀ (b : BlockString0 C), b.StarSets →
    ∀ m los, Returns (Evaluator.rBlockString0 env rGroup b U Su m maxRange) los →
      Finds (b.Spans env rGroup e U Su maxRange m) (b.AllBlocks (Block.Settled env rGroup)) los
  | .block b, _, m, los, h => by
    rw [Evaluator.rBlockString0] at h
    exact (finds_rBlock hstarts h).congr (fun last => by rw [BlockString0.Spans]) id
  | .blockString b, hb, m, los, h => by
    rw [Evaluator.rBlockString0] at h
    exact (finds_rBlockString hstarts b hb m los h).congr
      (fun last => by rw [BlockString0.Spans]) id

theorem finds_rBlockString1 (hstarts : env.StartsBy e) : ∀ (b : BlockString1 C), b.StarSets →
    ∀ m los, Returns (Evaluator.rBlockString1 env rGroup b U Su m maxRange) los →
      Finds (b.Spans env rGroup e U Su maxRange m) (b.AllBlocks (Block.Settled env rGroup)) los
  | .nonStar b, hb, m, los, h => by
    rw [Evaluator.rBlockString1] at h
    exact (finds_rBlockString0 hstarts b hb m los h).congr
      (fun last => by rw [BlockString1.Spans]) id
  | .star b starSOM, hb, m, los, h => by
    rw [Evaluator.rBlockString1] at h
    exact (finds_rStar hb.1 (finds_rBlockString0 hstarts b hb.2) h).congr
      (fun last => by rw [BlockString1.Spans]) id

theorem finds_rBlockString2 (hstarts : env.StartsBy e) : ∀ (b : BlockString2 C), b.StarSets →
    ∀ m los, Returns (Evaluator.rBlockString2 env rGroup b U Su m maxRange) los →
      Finds (b.Spans env rGroup e U Su maxRange m) (b.AllBlocks (Block.Settled env rGroup)) los
  | .blockString1 _ b, hb, m, los, h => by
    rw [Evaluator.rBlockString2] at h
    exact (finds_rBlockString1 hstarts b hb m los h).congr
      (fun last => by rw [BlockString2.Spans]) id
  | .sequence node b (.blockString1 node' next), hb, m, los, h => by
    have hfirst := finds_rBlockString1 hstarts b hb.1 m
    have hrest := finds_rBlockString2 hstarts (.blockString1 node' next) hb.2
    rw [Evaluator.rBlockString2] at h
    cases hpower : next.getPowerBlock with
    | some power =>
      rw [hpower] at h
      dsimp only at h
      rw [← powerChain_eq] at h
      rw [finds_nothing h]
      refine Finds.nil fun last hlast => ?_
      rw [BlockString2.Spans, hpower] at hlast
      cases hlast.1
    | none =>
      rw [hpower] at h
      dsimp only at h
      rw [← nonPowerChain_eq] at h
      refine (finds_nonPower hfirst hrest h).congr (fun last => ?_) id
      rw [BlockString2.Spans, and_iff_right hpower]
  | .sequence node b (.sequence node' next nextButOne), hb, m, los, h => by
    have hfirst := finds_rBlockString1 hstarts b hb.1 m
    have hrest := finds_rBlockString2 hstarts (.sequence node' next nextButOne) hb.2
    have hbutOne := finds_rBlockString2 hstarts nextButOne hb.2.2
    rw [Evaluator.rBlockString2] at h
    cases hpower : next.getPowerBlock with
    | some power =>
      rw [hpower] at h
      dsimp only at h
      rw [← powerChain_eq] at h
      refine (finds_power hstarts hfirst hbutOne h).congr (fun last => ?_)
        (fun hsettled => ⟨hsettled.1, hsettled.2.2⟩)
      rw [BlockString2.Spans, hpower]
    | none =>
      rw [hpower] at h
      dsimp only at h
      rw [← nonPowerChain_eq] at h
      refine (finds_nonPower hfirst hrest h).congr (fun last => ?_) id
      rw [BlockString2.Spans, hpower]

/-- **What the evaluator finds**: every straw has one of the last monads of `Spans`, and if the
blocks are settled there is one for each of them. -/
theorem finds_rBlockString (hstarts : env.StartsBy e) : ∀ (b : BlockString C), b.StarSets →
    ∀ m los, Returns (Evaluator.rBlockString env rGroup b U Su m maxRange) los →
      Finds (b.Spans env rGroup e U Su maxRange m) (b.AllBlocks (Block.Settled env rGroup)) los
  | .blockString2 b, hb, m, los, h => by
    rw [Evaluator.rBlockString] at h
    exact (finds_rBlockString2 hstarts b hb m los h).congr
      (fun last => by rw [BlockString.Spans]) id
  | .or b rest, hb, m, los, h => by
    rw [Evaluator.rBlockString] at h
    obtain ⟨los₁, los₂, h₁, h₂, rfl⟩ := returns_orJoin h
    exact ((finds_rBlockString2 hstarts b hb.1 m los₁ h₁).append
      (finds_rBlockString hstarts rest hb.2 m los₂ h₂)).congr
        (fun last => by rw [BlockString.Spans]) id

end

end Strings

end Spans

end Emdros
