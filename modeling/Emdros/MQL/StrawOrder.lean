/-
# Where the objects of a straw start

A block that is tried at a monad is matched by objects that start there or later
(`Straw.StartsFrom`), if the iterators inside its brackets do not look back.  So in a match that
keeps to its lower limits (`ChainMatch.AboveLow`), no object behind a power block starts before the
limit.

The evaluators put straws behind straws in the same few ways, whatever is being shown of them.  What
has to be known of a property for it to go through is that a copy keeps it, and that a straw with it
that is put behind another one, right after which it was tried, gives one with it again
(`Straw.Composes`).  From these two the star and the strings without power blocks follow
(`ensures_starLoop`); the power blocks are left, where the next block is tried at the start monads
of an iterator.  There it is enough that the iterator `LooksForward`, which `Block.Forward` asks of
all of them.

`Straw.Composes` is used once more for where straws end, in `StrawEnds`.
-/
import Emdros.MQL.PowerBlocks
import Emdros.MQL.KleeneStar

namespace Emdros

open Partial

/-! ## 1. Straws -/

/-- The objects of a straw start at a monad or later, and it does not end before that. -/
def Straw.StartsFrom (Sm : Int) (straw : Straw) : Prop :=
  Sm - 1 ≤ straw.last ∧ ∀ mo ∈ straw.list, mo.isIDD = true → Sm ≤ mo.getMonads.first

namespace Straw.StartsFrom

variable {Sm s : Int} {straw front : Straw}

theorem mono (h : straw.StartsFrom s) (hs : Sm ≤ s) : straw.StartsFrom Sm :=
  ⟨by have := h.1; omega, fun mo hmo hidd => le_trans hs (h.2 mo hmo hidd)⟩

theorem single {mo : MatchedObject} (hlast : Sm - 1 ≤ mo.getLast)
    (hfirst : mo.isIDD = true → Sm ≤ mo.getMonads.first) :
    (Straw.new.append mo).StartsFrom Sm := by
  constructor
  · rw [Straw.append, Straw.last]
    split
    · exact hlast
    · rename_i hle
      exact le_trans hlast (not_lt.mp hle)
  · intro mo' hmo' hidd
    rw [Straw.append_list, Straw.new_list, List.nil_append, List.mem_singleton] at hmo'
    rw [hmo'] at hidd ⊢
    exact hfirst hidd

theorem copyMO_isIDD (mo : MatchedObject) : mo.copyMO.isIDD = mo.isIDD := by
  rw [MatchedObject.isIDD, MatchedObject.isIDD, MatchedObject.copyMO_idD]

theorem copyMO_getMonads (mo : MatchedObject) : mo.copyMO.getMonads = mo.getMonads := by
  cases mo
  rfl

/-- A copy starts where the original does. -/
theorem of_mem_copies {mos : List MatchedObject}
    (h : ∀ mo ∈ mos, mo.isIDD = true → Sm ≤ mo.getMonads.first) :
    ∀ mo ∈ mos.map MatchedObject.copyMO, mo.isIDD = true → Sm ≤ mo.getMonads.first := by
  intro mo hmo hidd
  obtain ⟨mo', hmo', rfl⟩ := List.mem_map.mp hmo
  rw [copyMO_isIDD] at hidd
  rw [copyMO_getMonads]
  exact h mo' hmo' hidd

theorem copy (h : straw.StartsFrom Sm) : straw.copy.StartsFrom Sm := ⟨h.1, of_mem_copies h.2⟩

theorem prepend (h : straw.StartsFrom s) (hs : Sm ≤ s) (hfront : front.StartsFrom Sm) :
    (straw.prepend front).StartsFrom Sm := by
  have h' := h.mono hs
  refine ⟨h'.1, fun mo hmo hidd => ?_⟩
  rw [Straw.prepend_list, List.mem_append] at hmo
  rcases hmo with hmo | hmo
  · exact of_mem_copies hfront.2 mo hmo hidd
  · exact h'.2 mo hmo hidd

/-- An `EMPTY_mo` is no object, and ends right before. -/
theorem empty (Sm : Int) : (Straw.new.append (MatchedObject.ofEmpty (Sm - 1))).StartsFrom Sm := by
  refine single ?_ fun h => Bool.noConfusion h
  change Sm - 1 ≤ if Sm - 1 > 0 then Sm - 1 else 0
  split <;> omega

end Straw.StartsFrom

/-- All straws of a list start from a monad. -/
def StartFrom (Sm : Int) (los : List Straw) : Prop := ∀ straw ∈ los, straw.StartsFrom Sm

namespace StartFrom

variable {Sm s : Int} {los los' : List Straw}

theorem nil : StartFrom Sm [] := fun _ h => absurd h List.not_mem_nil

theorem append (h : StartFrom Sm los) (h' : StartFrom Sm los') : StartFrom Sm (los ++ los') := by
  intro straw hstraw
  rcases List.mem_append.mp hstraw with hstraw | hstraw
  · exact h straw hstraw
  · exact h' straw hstraw

theorem singleton {straw : Straw} (h : straw.StartsFrom Sm) : StartFrom Sm [straw] := by
  intro straw' hstraw
  rw [List.mem_singleton.mp hstraw]
  exact h

theorem prependToAll (h : StartFrom s los) (hs : Sm ≤ s) {bs1Straw : Straw}
    (hbs1 : bs1Straw.StartsFrom Sm) : StartFrom Sm (prependToAll bs1Straw los) := by
  intro straw hstraw
  obtain ⟨straw', hstraw', rfl⟩ := List.mem_map.mp hstraw
  exact (h straw' (List.mem_filter.mp hstraw').1).prepend hs hbs1

theorem empty (Sm : Int) :
    StartFrom Sm [Straw.new.append (MatchedObject.ofEmpty (Sm - 1))] :=
  singleton (Straw.StartsFrom.empty Sm)

end StartFrom

/-! ## 2. What the blocks match -/

/-- The objects of an inst are not empty, and start where they are filed. -/
def ObjectBlockInfo.InstOrdered {C : Type} (info : ObjectBlockInfo C) : Prop :=
  ∀ o ∈ info.inst, o.monads.first = o.first ∧ o.first ≤ o.monads.last

section Pieces

variable {C S σ : Type} {env : QueryEnv C S σ} {U Su : SetOfMonads} {Sm : Int}
  {rOptBlocks : SetOfMonads → SetOfMonads → Eval σ (Option Sheaf)}

theorem mem_objectsAtSm {info : ObjectBlockInfo C} {o : MonadedObject}
    (h : o ∈ info.objectsAtSm Sm) : o ∈ info.inst := by
  unfold ObjectBlockInfo.objectsAtSm at h
  split at h
  · exact absurd h List.not_mem_nil
  · rename_i o' rest hsuffix
    split at h
    · exact absurd h List.not_mem_nil
    · rw [← hsuffix] at h
      exact (List.dropWhile_sublist _).subset h

theorem startFrom_rObjectBlockInst (info : ObjectBlockInfo C) (hinst : info.InstOrdered)
    (noOptBlocks : Bool) :
    Ensures (rObjectBlockInst env U Su Sm info noOptBlocks rOptBlocks) (StartFrom Sm) := by
  refine Ensures.foldlM _ StartFrom.nil fun los o ho hlos => ?_
  obtain ⟨hfirst, hlast⟩ := hinst o (mem_objectsAtSm ((List.takeWhile_sublist _).subset ho))
  have hSm : o.first = Sm := by
    simpa using List.all_eq_true.mp List.all_takeWhile o ho
  rw [hSm] at hfirst hlast
  refine Ensures.bind_right fun bDoObject => Ensures.ite (fun _ => ?_) fun _ => Ensures.pure hlos
  refine Ensures.bind_right fun pInner => Ensures.ite (fun _ => Ensures.pure hlos) fun _ => ?_
  refine Ensures.pure (hlos.append (StartFrom.singleton (Straw.StartsFrom.single ?_ ?_)))
  · exact le_trans (sub_le_self Sm Int.one_nonneg) hlast
  · exact fun _ => ge_of_eq hfirst

theorem le_last_of_add {first last : Int} {som : SetOfMonads}
    (h : SetOfMonads.empty.add first last = some som) : first ≤ som.last := by
  obtain ⟨e, he, rfl⟩ := Option.map_eq_some_iff.mp h
  rw [MonadSetElement.range] at he
  split at he
  · rename_i hle
    cases he
    rw [SetOfMonads.last, SetOfMonads.addMSE]
    dsimp only
    split
    · exact hle
    · rename_i hlast
      exact le_trans hle (not_lt.mp hlast)
  · cases he

/-- A gap is an `ID_M`. -/
theorem ofGap_isIDD (monads : SetOfMonads) (pOBB : ObjectBlockBase) (bRetrieve bFocus : Bool)
    (sheaf : Option Sheaf) :
    (MatchedObject.ofGap monads pOBB bRetrieve bFocus sheaf).isIDD = false := by
  cases bFocus <;> cases bRetrieve <;> rfl

theorem startFrom_rGap (retrieval : ERetrieval) (obb : ObjectBlockBase) (noOptBlocks : Bool)
    (emptyMo : Bool) :
    Ensures (rGap Su Sm retrieval obb noOptBlocks rOptBlocks emptyMo)
      fun pMO => StartFrom Sm (losOfGap pMO) := by
  refine Ensures.bind_right fun gap => ?_
  cases gap with
  | none =>
    exact Ensures.ite (fun _ => Ensures.pure (StartFrom.empty Sm))
      fun _ => Ensures.pure StartFrom.nil
  | some m =>
    refine (Ensures.ofOption fun somn hsomn => hsomn).bind fun somn hsomn => ?_
    have hlast := le_last_of_add hsomn
    refine Ensures.bind_right fun pInner => ?_
    refine Ensures.ite (fun _ => Ensures.pure StartFrom.nil) fun _ => Ensures.pure ?_
    refine StartFrom.singleton (Straw.StartsFrom.single ?_ ?_)
    · exact le_trans (sub_le_self Sm Int.one_nonneg) hlast
    · intro hidd
      rw [ofGap_isIDD] at hidd
      cases hidd

theorem startFrom_rNOTEXIST (afterNonNOTEXIST : Bool)
    (getSMI : SetOfMonads → SetOfMonads → Int → Eval σ (List Int))
    (rObjectBlock : SetOfMonads → SetOfMonads → Int → Eval σ (List Straw)) :
    Ensures (rNOTEXIST U Su Sm afterNonNOTEXIST getSMI rObjectBlock) (StartFrom Sm) := by
  refine Ensures.bind_right fun smi => Ensures.bind_right fun bItWasThere => ?_
  exact Ensures.ite (fun _ => Ensures.pure StartFrom.nil) fun _ => Ensures.pure (StartFrom.empty Sm)

variable {R : Int → Eval σ (List Straw)}

/-- A straw that is put behind another one, right after which it was tried, is again one. -/
structure Straw.Composes (P : Int → Straw → Prop) : Prop where
  copy : ∀ {Sm straw}, P Sm straw → P Sm straw.copy
  prepend : ∀ {Sm straw front}, P Sm front → P (front.last + 1) straw → P Sm (straw.prepend front)

namespace Straw.Composes

variable {P : Int → Straw → Prop} {los los' : List Straw}

/-- What a list gets of a copy of another one. -/
theorem appendACopy (hP : Straw.Composes P) {Q : Straw → Prop} (hQ : ∀ {straw}, P Sm straw →
    Q straw) (h : ∀ straw ∈ los, Q straw) (h' : ∀ straw ∈ los', P Sm straw) :
    ∀ straw ∈ ListOfStraws.appendACopy los los', Q straw := by
  refine List.forall_mem_append.mpr ⟨h, fun straw hstraw => ?_⟩
  obtain ⟨straw', hstraw', rfl⟩ := List.mem_map.mp hstraw
  exact hQ (hP.copy (h' straw' hstraw'))

theorem join (hP : Straw.Composes P) {mys : Straw} (hmys : P Sm mys)
    (h : ∀ straw ∈ los, P (mys.last + 1) straw) :
    ∀ straw ∈ ListOfStraws.join los mys, P Sm straw := by
  intro straw hstraw
  unfold ListOfStraws.join at hstraw
  split at hstraw
  · rw [List.mem_singleton.mp hstraw]
    exact hP.copy hmys
  · obtain ⟨straw', hstraw', rfl⟩ := List.mem_map.mp hstraw
    exact hP.prepend hmys (h straw' hstraw')

theorem ensures_starRound (hP : Straw.Composes P)
    (hR : ∀ Sm, Ensures (R Sm) fun los => ∀ straw ∈ los, P Sm straw)
    (hlos : ∀ straw ∈ los, P Sm straw) :
    Ensures (starRound R los) fun v => ∀ straw ∈ v.1, P Sm straw := by
  refine Ensures.foldlM (I := fun v : List Straw × Bool => ∀ straw ∈ v.1, P Sm straw) los
    (fun straw h => absurd h List.not_mem_nil) fun v straw hmem hv => ?_
  refine (hR (straw.last + 1)).bind fun los3 hlos3 => ?_
  refine Ensures.ite (fun _ => Ensures.pure hv) fun _ => Ensures.pure ?_
  exact List.forall_mem_append.mpr ⟨hv, hP.join (hlos straw hmem) hlos3⟩

/-- What the loop adds to its result is made of rounds. -/
theorem ensures_starLoop (hP : Straw.Composes P) {Q : Straw → Prop} (hQ : ∀ {straw}, P Sm straw →
    Q straw) (starSOM : SetOfMonads)
    (hR : ∀ Sm, Ensures (R Sm) fun los => ∀ straw ∈ los, P Sm straw) :
    ∀ (fuel : Nat) (count : Int) (los : List Straw) (somIt : List MonadSetElement)
      (resultLOS : List Straw), (∀ straw ∈ los, P Sm straw) → (∀ straw ∈ resultLOS, Q straw) →
      Ensures (starLoop starSOM R fuel count los somIt resultLOS)
        fun los => ∀ straw ∈ los, Q straw := by
  intro fuel
  induction fuel with
  | zero => exact fun _ _ _ _ _ _ => Ensures.failure
  | succ fuel ih =>
    intro count los somIt resultLOS hlos hresult
    refine (hP.ensures_starRound hR hlos).bind fun v hv => ?_
    refine Ensures.ite (fun _ => ?_) fun _ => Ensures.pure hresult
    refine Ensures.bind_right fun r => ?_
    have hresult' : ∀ straw ∈ if r.1 then ListOfStraws.appendACopy resultLOS v.1 else resultLOS,
        Q straw := by
      split
      · exact hP.appendACopy hQ hresult hv
      · exact hresult
    refine Ensures.ite (fun _ => Ensures.pure hresult') fun _ => ?_
    exact ih (count + 1) v.1 r.2 _ hv hresult'

/-- The straws of a star: one that is empty, if 0 is in its set, and those that are made of
rounds. -/
theorem ensures_rStar (hP : Straw.Composes P) {Q : Straw → Prop} (hQ : ∀ {straw}, P Sm straw →
    Q straw) (starSOM : SetOfMonads)
    (hempty : starSOM.isMemberOf 0 = true ∨
      (∃ r, starSOM.isMemberOfHint 0 starSOM.monadMs = some (true, r)) →
        Q (Straw.new.append (MatchedObject.ofEmpty (Sm - 1))))
    (hR : ∀ Sm, Ensures (R Sm) fun los => ∀ straw ∈ los, P Sm straw) :
    Ensures (rStar starSOM Sm R) fun los => ∀ straw ∈ los, Q straw := by
  have hnil : ∀ straw ∈ ([] : List Straw), Q straw := fun _ h => absurd h List.not_mem_nil
  refine (hR Sm).bind fun los hlos => Ensures.ite (fun _ => ?_) fun _ => ?_
  · refine Ensures.ite (fun hmember => Ensures.pure ?_) fun _ => Ensures.pure hnil
    exact List.forall_mem_singleton.mpr (hempty (Or.inl hmember))
  · refine (Ensures.ofOption fun r hr => hr).bind fun r hr => Ensures.bind_right fun r' => ?_
    have hzero : ∀ straw ∈
        if r.1 then [Straw.new.append (MatchedObject.ofEmpty (Sm - 1))] else [], Q straw := by
      obtain ⟨bZero, somIt⟩ := r
      split
      · rename_i hmember
        change bZero = true at hmember
        exact List.forall_mem_singleton.mpr (hempty (Or.inr ⟨somIt, hmember ▸ hr⟩))
      · exact hnil
    have hone : ∀ los', (∀ straw ∈ los', Q straw) →
        ∀ straw ∈ if r'.1 then ListOfStraws.appendACopy los' los else los', Q straw := by
      intro los' hlos'
      split
      · exact hP.appendACopy hQ hlos' hlos
      · exact hlos'
    refine Ensures.ite (fun _ => ?_) fun _ => Ensures.pure (hone _ hzero)
    exact hP.ensures_starLoop hQ starSOM hR _ 2 los r'.2 _ hlos (hone _ hzero)

end Straw.Composes

theorem Straw.StartsFrom.composes : Straw.Composes Straw.StartsFrom where
  copy h := h.copy
  prepend hfront h := h.prepend (sub_le_iff_le_add.mp hfront.1) hfront

theorem startFrom_rStar (starSOM : SetOfMonads) (hR : ∀ Sm, Ensures (R Sm) (StartFrom Sm)) :
    Ensures (rStar starSOM Sm R) (StartFrom Sm) :=
  Straw.StartsFrom.composes.ensures_rStar id starSOM (fun _ => Straw.StartsFrom.empty Sm) hR

variable {rFirst : Eval σ (List Straw)}

theorem startFrom_nonPower (node : Nat) (hrFirst : Ensures rFirst (StartFrom Sm))
    (hR : ∀ Sm, Ensures (R Sm) (StartFrom Sm)) :
    Ensures (rBlockString2NonPowerBlock env node rFirst R) (StartFrom Sm) := by
  refine hrFirst.bind fun bs1LOS hbs1LOS => ?_
  refine Ensures.foldlM _ StartFrom.nil fun los bs1Straw hmem hlos => ?_
  refine Ensures.bind_right fun _ => (hR _).bind fun bs2LOS hbs2LOS => Ensures.pure ?_
  have hbs1 := hbs1LOS bs1Straw hmem
  exact hlos.append (hbs2LOS.prependToAll (sub_le_iff_le_add.mp hbs1.1) hbs1)

/-- Behind a power block, the start monads must not lie before the lower limit. -/
theorem startFrom_power {maxRange : Int} (hmax : 0 ≤ maxRange) (node : Nat) {power : Power}
    (hlow : 0 ≤ power.limitLow) (hhigh : 0 ≤ power.limitHigh)
    (hrFirst : Ensures rFirst (StartFrom Sm)) {getSMI : Int → Eval σ (List Int)}
    (hgetSMI : ∀ Sm, (rRestrict Su Sm).isEmpty = false →
      Ensures (getSMI Sm) fun smi => ∀ s ∈ smi, Sm ≤ s)
    (hR : ∀ Sm, Ensures (R Sm) (StartFrom Sm)) :
    Ensures (rBlockString2PowerBlock env U Su maxRange node power rFirst getSMI R)
      (StartFrom Sm) := by
  have hlimitLow : 0 ≤ min power.limitLow (min power.limitHigh maxRange) :=
    le_min hlow (le_min hhigh hmax)
  refine hrFirst.bind fun bs1LOS hbs1LOS => ?_
  refine Ensures.foldlM _ StartFrom.nil fun los bs1Straw hmem hlos => ?_
  have hbs1 := hbs1LOS bs1Straw hmem
  refine Ensures.bind_right fun _ => Ensures.ite (fun hrest => ?_) fun _ => Ensures.pure hlos
  have hleft := (Bool.and_eq_true_iff.mp hrest).2
  refine (hgetSMI _ (by simpa using hleft)).bind fun smi hsmi => ?_
  refine Ensures.foldlM _ hlos fun los Smping hSmping hlos => ?_
  refine (hR Smping).bind fun bs2LOS hbs2LOS => Ensures.pure (hlos.append ?_)
  have hlower := hsmi Smping ((List.takeWhile_sublist _).subset hSmping)
  have hSm : Sm ≤ bs1Straw.last + 1 := sub_le_iff_le_add.mp hbs1.1
  refine hbs2LOS.prependToAll (le_trans hSm (le_trans ?_ hlower)) hbs1
  exact le_add_of_nonneg_right hlimitLow

end Pieces

/-! ## 3. Blocks that do not look back -/

section Forward

variable {C S σ : Type} (looks : BlockString1 C → Prop)

/-- The iterator over the start monads of a block does not look back, as long as something is left
of the substrate. -/
def LooksForward (env : QueryEnv C S σ) (U Su : SetOfMonads) (b : BlockString1 C) : Prop :=
  ∀ Sm : Int, (rRestrict Su Sm).isEmpty = false →
    Ensures (env.getSMIBlockString1 b U Su Sm) fun smi => ∀ s ∈ smi, Sm ≤ s

def Power.Limits (power : Power) : Prop := 0 ≤ power.limitLow ∧ 0 ≤ power.limitHigh

def Block.Forward : Block C → Prop
  | .objectBlock (.mk info _) => info.InstOrdered
  | _ => True

mutual

/-- Wherever the block is tried, its objects start there or later: inside its brackets, of every
block that follows a power block `looks` holds, which is to say that it does not look back. -/
def BlockString0.Forward : BlockString0 C → Prop
  | .block b => b.Forward
  | .blockString b => b.Forward

def BlockString1.Forward : BlockString1 C → Prop
  | .nonStar b => b.Forward
  | .star b _ => b.Forward

def BlockString2.Forward : BlockString2 C → Prop
  | .blockString1 _ b => b.Forward
  | .sequence _ b (.blockString1 _ next) => b.Forward ∧ next.Forward
  | .sequence _ b (.sequence node next nextButOne) =>
    b.Forward ∧
      match next.getPowerBlock with
      | some power => power.Limits ∧ looks nextButOne.getBlockString1 ∧
          nextButOne.Forward
      | none => (BlockString2.sequence node next nextButOne).Forward

def BlockString.Forward : BlockString C → Prop
  | .blockString2 b => b.Forward
  | .or b rest => b.Forward ∧ rest.Forward

end

variable {looks} {env : QueryEnv C S σ}
  {rGroup : ObjectBlockString C → Option (MQLResultCallback σ) → Bool →
    List (List Straw) → Eval σ Sheaf}
  {U Su : SetOfMonads} {maxRange : Int}

theorem startFrom_rBlock : ∀ (b : Block C), b.Forward → ∀ Sm,
    Ensures (Evaluator.rBlock env rGroup b U Su Sm) (StartFrom Sm)
  | .gapBlock (.mk retrieval obb optBlocks), _, Sm => by
    rw [Evaluator.rBlock, Evaluator.rGapBlock]
    exact (startFrom_rGap retrieval obb _ false).bind fun _ h => Ensures.pure h
  | .optGapBlock (.mk retrieval obb optBlocks), _, Sm => by
    rw [Evaluator.rBlock, Evaluator.rGapBlock]
    exact (startFrom_rGap retrieval obb _ true).bind fun _ h => Ensures.pure h
  | .powerBlock power, _, Sm => by
    rw [Evaluator.rBlock]
    exact Ensures.failure
  | .objectBlock (.mk info optBlocks), hb, Sm => by
    rw [Evaluator.rBlock, Evaluator.rObjectBlock]
    exact startFrom_rObjectBlockInst info hb _
  | .objectBlockNOTEXIST (.mk info optBlocks), _, Sm => by
    rw [Evaluator.rBlock]
    exact startFrom_rNOTEXIST _ _ _

mutual

theorem startFrom_rBlockString0 (hmax : 0 ≤ maxRange)
    (hlooks : ∀ b, looks b → LooksForward env U Su b) : ∀ (b : BlockString0 C), b.Forward looks →
    ∀ Sm, Ensures (Evaluator.rBlockString0 env rGroup b U Su Sm maxRange) (StartFrom Sm)
  | .block b, hb, Sm => by
    rw [Evaluator.rBlockString0]
    exact startFrom_rBlock b hb Sm
  | .blockString b, hb, Sm => by
    rw [Evaluator.rBlockString0]
    exact startFrom_rBlockString hmax hlooks b hb Sm

theorem startFrom_rBlockString1 (hmax : 0 ≤ maxRange)
    (hlooks : ∀ b, looks b → LooksForward env U Su b) : ∀ (b : BlockString1 C), b.Forward looks →
    ∀ Sm, Ensures (Evaluator.rBlockString1 env rGroup b U Su Sm maxRange) (StartFrom Sm)
  | .nonStar b, hb, Sm => by
    rw [Evaluator.rBlockString1]
    exact startFrom_rBlockString0 hmax hlooks b hb Sm
  | .star b starSOM, hb, Sm => by
    rw [Evaluator.rBlockString1]
    exact startFrom_rStar starSOM (startFrom_rBlockString0 hmax hlooks b hb)

theorem startFrom_rBlockString2 (hmax : 0 ≤ maxRange)
    (hlooks : ∀ b, looks b → LooksForward env U Su b) : ∀ (b : BlockString2 C), b.Forward looks →
    ∀ Sm, Ensures (Evaluator.rBlockString2 env rGroup b U Su Sm maxRange) (StartFrom Sm)
  | .blockString1 _ b, hb, Sm => by
    rw [Evaluator.rBlockString2]
    exact startFrom_rBlockString1 hmax hlooks b hb Sm
  | .sequence node b (.blockString1 node' next), ⟨hb, hnext⟩, Sm => by
    have hfirst := startFrom_rBlockString1 hmax hlooks b hb
    have hrest := startFrom_rBlockString2 hmax hlooks (.blockString1 node' next) hnext
    rw [Evaluator.rBlockString2]
    cases next.getPowerBlock with
    | some power =>
      refine Ensures.bind_right fun bs1LOS => ?_
      refine Ensures.foldlM _ StartFrom.nil fun los bs1Straw _ hlos => ?_
      refine Ensures.bind_right fun _ => Ensures.ite (fun _ => ?_) fun _ => Ensures.pure hlos
      exact Ensures.failure.bind fun _ h => False.elim h
    | none => exact startFrom_nonPower node (hfirst Sm) hrest
  | .sequence node b (.sequence node' next nextButOne), ⟨hb, hnext⟩, Sm => by
    have hfirst := startFrom_rBlockString1 hmax hlooks b hb
    have hrest := startFrom_rBlockString2 hmax hlooks (.sequence node' next nextButOne)
    have hbutOne := startFrom_rBlockString2 hmax hlooks nextButOne
    rw [Evaluator.rBlockString2]
    cases hpower : next.getPowerBlock with
    | some power =>
      rw [hpower] at hnext
      obtain ⟨⟨hlow, hhigh⟩, hnextLooks, hforward⟩ := hnext
      exact startFrom_power hmax node hlow hhigh (hfirst Sm) (hlooks _ hnextLooks)
        (hbutOne hforward)
    | none =>
      rw [hpower] at hnext
      exact startFrom_nonPower node (hfirst Sm) (hrest hnext)

theorem startFrom_rBlockString (hmax : 0 ≤ maxRange)
    (hlooks : ∀ b, looks b → LooksForward env U Su b) : ∀ (b : BlockString C), b.Forward looks →
    ∀ Sm, Ensures (Evaluator.rBlockString env rGroup b U Su Sm maxRange) (StartFrom Sm)
  | .blockString2 b, hb, Sm => by
    rw [Evaluator.rBlockString]
    exact startFrom_rBlockString2 hmax hlooks b hb Sm
  | .or b rest, ⟨hb, hrest⟩, Sm => by
    rw [Evaluator.rBlockString]
    refine (startFrom_rBlockString2 hmax hlooks b hb Sm).bind fun los hlos => ?_
    refine (startFrom_rBlockString hmax hlooks rest hrest Sm).bind fun los' hlos' => ?_
    refine Ensures.ite (fun _ => Ensures.pure hlos') fun _ => ?_
    exact Ensures.ite (fun _ => Ensures.pure hlos) fun _ => Ensures.pure (hlos.append hlos')

end

/-! ## 4. Objects behind a power block -/

/-- The blocks of a string do not look back inside, and its limits are numbers. -/
def BlockString2.BlocksForward (looks : BlockString1 C → Prop) : BlockString2 C → Prop
  | .blockString1 _ b => b.Forward looks
  | .sequence _ b (.blockString1 _ next) => b.Forward looks ∧ next.Forward looks
  | .sequence _ b (.sequence node next nextButOne) =>
    b.Forward looks ∧
      match next.getPowerBlock with
      | some power => power.Limits ∧ nextButOne.BlocksForward looks
      | none => (BlockString2.sequence node next nextButOne).BlocksForward looks

/-- After a power block, no object starts before the lower limit. -/
def ChainMatch.ObjectsAbove (maxRange : Int) : BlockString2 C → ChainMatch → Prop
  | .sequence _ _ (.sequence node next nextButOne), .cons _ straw m =>
    match next.getPowerBlock with
    | some power =>
      (∀ mo ∈ m.toStraw.list, mo.isIDD = true →
        straw.last + 1 + power.low maxRange ≤ mo.getMonads.first) ∧
        m.ObjectsAbove maxRange nextButOne
    | none => m.ObjectsAbove maxRange (.sequence node next nextButOne)
  | _, _ => True

theorem MatchedAt.startsFrom (hmax : 0 ≤ maxRange)
    (hlooks : ∀ b, looks b → LooksForward env U Su b) {b : BlockString1 C} (hb : b.Forward looks)
    {Sm : Int} {straw : Straw} (h : MatchedAt env rGroup U Su maxRange b Sm straw) :
    straw.StartsFrom Sm := by
  obtain ⟨los, ⟨s, s', hrun⟩, hstraw⟩ := h
  exact (startFrom_rBlockString1 hmax hlooks b hb Sm).of_run hrun straw hstraw

/-- A match in order and above its lower limits starts where it was tried, and so do its parts. -/
theorem ChainMatch.InOrder.startsFrom (hmax : 0 ≤ maxRange)
    (hlooks : ∀ b, looks b → LooksForward env U Su b) : ∀ (b : BlockString2 C)
    (Sm : Int) (m : ChainMatch), b.BlocksForward looks → m.InOrder env rGroup U Su maxRange b Sm →
    m.AboveLow maxRange b → m.toStraw.StartsFrom Sm ∧ m.ObjectsAbove maxRange b
  | .blockString1 _ b, Sm, .one s straw, hb, ⟨_, hmatched⟩, _ =>
    ⟨hmatched.startsFrom hmax hlooks hb, trivial⟩
  | .sequence _ b (.blockString1 node next), Sm, .cons s straw m, ⟨hb, hnext⟩,
      ⟨_, hmatched, hm⟩, _ => by
    have hstraw := hmatched.startsFrom hmax hlooks hb
    obtain ⟨hstarts, -⟩ := hm.startsFrom hmax hlooks (.blockString1 node next) _ m hnext
      (by cases m <;> trivial)
    exact ⟨hstarts.prepend (sub_le_iff_le_add.mp hstraw.1) hstraw, trivial⟩
  | .sequence _ b (.sequence node next nextButOne), Sm, .cons s straw m, ⟨hb, hnext⟩,
      ⟨_, hmatched, hm⟩, habove => by
    have hstraw := hmatched.startsFrom hmax hlooks hb
    have hSm : Sm ≤ straw.last + 1 := sub_le_iff_le_add.mp hstraw.1
    rw [ChainMatch.AboveLow] at habove
    rw [ChainMatch.ObjectsAbove]
    cases hpower : next.getPowerBlock with
    | some power =>
      rw [hpower] at hm hnext habove
      obtain ⟨⟨hlow, hhigh⟩, hnext⟩ := hnext
      obtain ⟨hlower, habove⟩ := habove
      obtain ⟨hstarts, hobjects⟩ := hm.2.2.startsFrom hmax hlooks nextButOne _ m hnext habove
      have hlimit : 0 ≤ power.low maxRange := le_min hlow (le_min hhigh hmax)
      have hfrom := hstarts.mono hlower
      refine ⟨hstarts.prepend (le_trans hSm (le_trans ?_ hlower)) hstraw, hfrom.2, hobjects⟩
      exact le_add_of_nonneg_right hlimit
    | none =>
      rw [hpower] at hm hnext habove
      obtain ⟨hstarts, hobjects⟩ :=
        hm.startsFrom hmax hlooks (.sequence node next nextButOne) _ m hnext habove
      exact ⟨hstarts.prepend hSm hstraw, hobjects⟩

end Forward

end Emdros
