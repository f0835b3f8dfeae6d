/-
# Where straws end

`m_last` of a straw says where the next block is tried.  Only `append` keeps it up to date: when a
straw is put behind another one, the result keeps the `m_last` that the second one had.  So it is
the last monad of the whole only where a match is extended to the right.

`hookedBlockString` is the evaluation of strings of blocks with a hook wherever a function returns a
list, and `asserting` the hook that tests whether its straws end well.  Without a power block they
do, at start monads from 1 on: a straw is always extended to the right.  What goes wrong behind a
power block is said in `BadEnds`.
-/
import Emdros.MQL.StrawOrder

namespace Emdros

open Partial

/-! ## 1. The end of a straw -/

namespace MatchedObject

/-- The `SmMinus1` that an `EMPTY_mo` was made with. -/
def smMinus1 (mo : MatchedObject) : Int :=
  (mo.getMonads.monadMs.head?.map MonadSetElement.firstM).getD 0

/-- The last monad of what was matched; of nothing, the monad before. -/
def endMonad (mo : MatchedObject) : Int := if mo.isEMPTYmo then mo.smMinus1 else mo.getLast

@[simp] theorem copyMO_endMonad (mo : MatchedObject) : mo.copyMO.endMonad = mo.endMonad := by
  cases mo
  rfl

@[simp] theorem endMonad_ofEmpty (m : Int) : (ofEmpty m).endMonad = m := rfl

end MatchedObject

namespace Straw

/-- A straw of a block that was tried at a monad is not empty, its `m_last` is the maximum over its
matched objects, and it does not end before that monad. -/
structure EndsWell (Sm : Int) (straw : Straw) : Prop where
  ne : straw.list ≠ []
  le_last : ∀ mo ∈ straw.list, mo.endMonad ≤ straw.last
  attained : ∃ mo ∈ straw.list, mo.endMonad = straw.last
  sub_one_le : Sm - 1 ≤ straw.last

instance (Sm : Int) : DecidablePred (EndsWell Sm) := fun straw =>
  decidable_of_iff (straw.list ≠ [] ∧ (∀ mo ∈ straw.list, mo.endMonad ≤ straw.last) ∧
    (∃ mo ∈ straw.list, mo.endMonad = straw.last) ∧ Sm - 1 ≤ straw.last)
    ⟨fun h => ⟨h.1, h.2.1, h.2.2.1, h.2.2.2⟩, fun h => ⟨h.1, h.2, h.3, h.4⟩⟩

/-- Behind another straw, the last monad is that of both where it is not before the other's. -/
theorem endsWell_prepend_iff {Sm s : Int} {straw front : Straw} (hfront : front.EndsWell Sm)
    (h : straw.EndsWell s) : (straw.prepend front).EndsWell Sm ↔ front.last ≤ straw.last := by
  constructor
  · intro hjoin
    obtain ⟨mo, hmo, hend⟩ := hfront.attained
    have hmem : mo.copyMO ∈ (straw.prepend front).list := by
      rw [prepend_list]
      exact List.mem_append_left _ (List.mem_map_of_mem hmo)
    have hle := hjoin.le_last _ hmem
    rw [MatchedObject.copyMO_endMonad, hend] at hle
    exact hle
  · intro hle
    refine ⟨?_, ?_, ?_, le_trans hfront.sub_one_le hle⟩
    · rw [prepend_list]
      exact List.append_ne_nil_of_right_ne_nil _ h.ne
    · intro mo hmo
      rw [prepend_list, List.mem_append] at hmo
      rcases hmo with hmo | hmo
      · obtain ⟨mo', hmo', rfl⟩ := List.mem_map.mp hmo
        rw [MatchedObject.copyMO_endMonad]
        exact le_trans (hfront.le_last mo' hmo') hle
      · exact h.le_last mo hmo
    · obtain ⟨mo, hmo, hend⟩ := h.attained
      refine ⟨mo, ?_, hend⟩
      rw [prepend_list]
      exact List.mem_append_right _ hmo

namespace EndsWell

variable {Sm : Int} {straw front : Straw}

theorem isEmpty (h : straw.EndsWell Sm) : straw.isEmpty = false :=
  List.isEmpty_eq_false_iff.mpr h.ne

theorem copy (h : straw.EndsWell Sm) : straw.copy.EndsWell Sm := by
  have hmem : ∀ {mo}, mo ∈ straw.copy.list ↔ ∃ mo' ∈ straw.list, mo'.copyMO = mo := List.mem_map
  refine ⟨?_, fun mo hmo => ?_, ?_, h.sub_one_le⟩
  · exact fun hnil => h.ne (List.map_eq_nil_iff.mp hnil)
  · obtain ⟨mo', hmo', rfl⟩ := hmem.mp hmo
    rw [MatchedObject.copyMO_endMonad]
    exact h.le_last mo' hmo'
  · obtain ⟨mo, hmo, hend⟩ := h.attained
    exact ⟨mo.copyMO, hmem.mpr ⟨mo, hmo, rfl⟩, by rw [MatchedObject.copyMO_endMonad, hend]; rfl⟩

/-- A straw of one object or gap. -/
theorem single {mo : MatchedObject} (hmo : mo.isEMPTYmo = false) (hlast : Sm - 1 ≤ mo.getLast)
    (hnonneg : 0 ≤ mo.getLast) : (Straw.new.append mo).EndsWell Sm := by
  have hend : mo.endMonad = mo.getLast := by
    rw [MatchedObject.endMonad, hmo]
    rfl
  have hstraw : (Straw.new.append mo).last = mo.getLast := by
    show (if mo.getLast > 0 then mo.getLast else 0) = mo.getLast
    split <;> omega
  have hlist : (Straw.new.append mo).list = [mo] := rfl
  refine ⟨by rw [hlist]; simp, ?_, ?_, by rw [hstraw]; exact hlast⟩
  · rw [hlist, hstraw]
    simp [hend]
  · rw [hlist, hstraw]
    simp [hend]

/-- Right behind another straw. -/
theorem composes : Straw.Composes EndsWell where
  copy h := h.copy
  prepend hfront h := (endsWell_prepend_iff hfront h).mpr (by have := h.sub_one_le; omega)

end EndsWell

/-- The straw of a block that was skipped. -/
def skipped (Sm : Int) : Straw := Straw.new.append (MatchedObject.ofEmpty (Sm - 1))

@[simp] theorem skipped_list (Sm : Int) :
    (skipped Sm).list = [MatchedObject.ofEmpty (Sm - 1)] := rfl

theorem skipped_last (Sm : Int) : (skipped Sm).last = max (Sm - 1) 0 := by
  show (if (if Sm - 1 > 0 then Sm - 1 else 0) > 0 then (if Sm - 1 > 0 then Sm - 1 else 0) else 0)
    = max (Sm - 1) 0
  by_cases h : Sm - 1 > 0
  · rw [if_pos h, if_pos h, max_eq_left (le_of_lt h)]
  · rw [if_neg h, ite_self, max_eq_right (not_lt.mp h)]

/-- A placeholder ends well unless its monad is negative. -/
theorem skipped_endsWell_iff {Sm : Int} : (skipped Sm).EndsWell Sm ↔ 1 ≤ Sm := by
  constructor
  · intro hends
    obtain ⟨mo, hmo, hend⟩ := hends.attained
    rw [skipped_list, List.mem_singleton] at hmo
    rw [hmo, MatchedObject.endMonad_ofEmpty, skipped_last] at hend
    omega
  · intro h
    have hlast : (skipped Sm).last = Sm - 1 := by
      rw [skipped_last]
      omega
    refine ⟨by simp, ?_, ?_, by rw [hlast]⟩
    · simp [hlast]
    · simp [hlast]

end Straw

/-! ## 2. The evaluation with hooks -/

section Hooked

variable {C S σ : Type} (env : QueryEnv C S σ)
  (rGroup : ObjectBlockString C → Option (MQLResultCallback σ) → Bool →
    List (List Straw) → Eval σ Sheaf)
  (U Su : SetOfMonads) (maxRange : Int) (onReturn : Int → List Straw → Eval σ (List Straw))

/-- Every list that is returned must consist of straws that end well. -/
def asserting (Sm : Int) (los : List Straw) : Eval σ (List Straw) :=
  guardAll (fun straw => straw.EndsWell Sm) los

/-- Nothing is done. -/
def noHook (_ : Int) (los : List Straw) : Eval σ (List Straw) := pure los

/-- `R_block_string` on an `OR`. -/
def orJoin (rBlockString2 rBlockString : Eval σ (List Straw)) : Eval σ (List Straw) := do
  let blockString2LOS ← rBlockString2
  let blockStringLOS ← rBlockString
  if blockString2LOS.isEmpty then pure blockStringLOS
  else if blockStringLOS.isEmpty then pure blockString2LOS
  else pure (blockString2LOS ++ blockStringLOS)

mutual

/-- `R_block_string0`, and `R_block` in it. -/
def hookedBlockString0 : BlockString0 C → Int → Eval σ (List Straw)
  | .block block, Sm => do
    let los ← Evaluator.rBlock env rGroup block U Su Sm
    onReturn Sm los
  | .blockString blockString, Sm => hookedBlockString blockString Sm

def hookedBlockString1 : BlockString1 C → Int → Eval σ (List Straw)
  | .nonStar blockString0, Sm => hookedBlockString0 blockString0 Sm
  | .star blockString0 starSOM, Sm => do
    let los ← rStar starSOM Sm fun Sm => hookedBlockString0 blockString0 Sm
    onReturn Sm los

def hookedBlockString2 : BlockString2 C → Int → Eval σ (List Straw)
  | .blockString1 _ blockString1, Sm => hookedBlockString1 blockString1 Sm
  | .sequence node blockString1 (.blockString1 node' next), Sm => do
    let los ← match next.getPowerBlock with
      | some power =>
        powerChain env U Su maxRange node power (hookedBlockString1 blockString1 Sm)
          (fun _ => failure) prependToAll (fun _ => failure)
      | none =>
        nonPowerChain env node (hookedBlockString1 blockString1 Sm) prependToAll fun Sm =>
          hookedBlockString2 (.blockString1 node' next) Sm
    onReturn Sm los
  | .sequence node blockString1 (.sequence node' next nextButOne), Sm => do
    let los ← match next.getPowerBlock with
      | some power =>
        powerChain env U Su maxRange node power (hookedBlockString1 blockString1 Sm)
          (fun Sm => env.getSMIBlockString1 nextButOne.getBlockString1 U Su Sm) prependToAll
          fun Sm => hookedBlockString2 nextButOne Sm
      | none =>
        nonPowerChain env node (hookedBlockString1 blockString1 Sm) prependToAll fun Sm =>
          hookedBlockString2 (.sequence node' next nextButOne) Sm
    onReturn Sm los

def hookedBlockString : BlockString C → Int → Eval σ (List Straw)
  | .blockString2 blockString2, Sm => hookedBlockString2 blockString2 Sm
  | .or blockString2 blockString, Sm => do
    let los ← orJoin (hookedBlockString2 blockString2 Sm) (hookedBlockString blockString Sm)
    onReturn Sm los

end

variable {env rGroup U Su maxRange}

/-! ## 3. Without hooks it is the code -/

mutual

theorem hookedBlockString0_none : ∀ (b : BlockString0 C) (Sm : Int),
    hookedBlockString0 env rGroup U Su maxRange noHook b Sm
      = Evaluator.rBlockString0 env rGroup b U Su Sm maxRange
  | .block block, Sm => by
    rw [hookedBlockString0, Evaluator.rBlockString0]
    exact bind_pure _
  | .blockString b, Sm => by
    rw [hookedBlockString0, Evaluator.rBlockString0]
    exact hookedBlockString_none b Sm

theorem hookedBlockString1_none : ∀ (b : BlockString1 C) (Sm : Int),
    hookedBlockString1 env rGroup U Su maxRange noHook b Sm
      = Evaluator.rBlockString1 env rGroup b U Su Sm maxRange
  | .nonStar b, Sm => by
    rw [hookedBlockString1, Evaluator.rBlockString1]
    exact hookedBlockString0_none b Sm
  | .star b starSOM, Sm => by
    have hb : (fun Sm => hookedBlockString0 env rGroup U Su maxRange noHook b Sm)
        = fun Sm => Evaluator.rBlockString0 env rGroup b U Su Sm maxRange :=
      funext fun Sm => hookedBlockString0_none b Sm
    rw [hookedBlockString1, Evaluator.rBlockString1, hb]
    exact bind_pure _

theorem hookedBlockString2_none : ∀ (b : BlockString2 C) (Sm : Int),
    hookedBlockString2 env rGroup U Su maxRange noHook b Sm
      = Evaluator.rBlockString2 env rGroup b U Su Sm maxRange
  | .blockString1 _ b, Sm => by
    rw [hookedBlockString2, Evaluator.rBlockString2]
    exact hookedBlockString1_none b Sm
  | .sequence node b (.blockString1 node' next), Sm => by
    have hnext : (fun Sm => hookedBlockString2 env rGroup U Su maxRange noHook
          (.blockString1 node' next) Sm)
        = fun Sm => Evaluator.rBlockString2 env rGroup (.blockString1 node' next) U Su Sm
          maxRange :=
      funext fun Sm => hookedBlockString2_none (.blockString1 node' next) Sm
    rw [hookedBlockString2, Evaluator.rBlockString2, hookedBlockString1_none b Sm]
    cases next.getPowerBlock with
    | some power =>
      dsimp only
      rw [powerChain_eq]
      exact bind_pure _
    | none =>
      rw [hnext, nonPowerChain_eq]
      exact bind_pure _
  | .sequence node b (.sequence node' next nextButOne), Sm => by
    have hnext : (fun Sm => hookedBlockString2 env rGroup U Su maxRange noHook
          (.sequence node' next nextButOne) Sm)
        = fun Sm => Evaluator.rBlockString2 env rGroup (.sequence node' next nextButOne) U Su Sm
          maxRange :=
      funext fun Sm => hookedBlockString2_none (.sequence node' next nextButOne) Sm
    have hbutOne : (fun Sm => hookedBlockString2 env rGroup U Su maxRange noHook nextButOne Sm)
        = fun Sm => Evaluator.rBlockString2 env rGroup nextButOne U Su Sm maxRange :=
      funext fun Sm => hookedBlockString2_none nextButOne Sm
    rw [hookedBlockString2, Evaluator.rBlockString2, hookedBlockString1_none b Sm]
    cases next.getPowerBlock with
    | some power =>
      dsimp only
      rw [hbutOne, powerChain_eq]
      exact bind_pure _
    | none =>
      rw [hnext, nonPowerChain_eq]
      exact bind_pure _

theorem hookedBlockString_none : ∀ (b : BlockString C) (Sm : Int),
    hookedBlockString env rGroup U Su maxRange noHook b Sm
      = Evaluator.rBlockString env rGroup b U Su Sm maxRange
  | .blockString2 b, Sm => by
    rw [hookedBlockString, Evaluator.rBlockString]
    exact hookedBlockString2_none b Sm
  | .or b rest, Sm => by
    rw [hookedBlockString, Evaluator.rBlockString, hookedBlockString2_none b Sm,
      hookedBlockString_none rest Sm]
    exact bind_pure _

end

/-! ## 4. The blocks -/

mutual

/-- A property of all blocks of a string, those in brackets too. -/
def BlockString0.AllBlocks (P : Block C → Prop) : BlockString0 C → Prop
  | .block b => P b
  | .blockString b => b.AllBlocks P

def BlockString1.AllBlocks (P : Block C → Prop) : BlockString1 C → Prop
  | .nonStar b => b.AllBlocks P
  | .star b _ => b.AllBlocks P

def BlockString2.AllBlocks (P : Block C → Prop) : BlockString2 C → Prop
  | .blockString1 _ b => b.AllBlocks P
  | .sequence _ b rest => b.AllBlocks P ∧ rest.AllBlocks P

def BlockString.AllBlocks (P : Block C → Prop) : BlockString C → Prop
  | .blockString2 b => b.AllBlocks P
  | .or b rest => b.AllBlocks P ∧ rest.AllBlocks P

end

/-- The straws of a block that was tried at a monad. -/
def AllEndWell (Sm : Int) (los : List Straw) : Prop := ∀ straw ∈ los, straw.EndsWell Sm

theorem endsWell_rObjectBlockInst {Sm : Int} {info : ObjectBlockInfo C}
    (hinst : ∀ o ∈ info.inst, 1 ≤ o.first ∧ o.first ≤ o.monads.last) (noOptBlocks : Bool)
    (rOptBlocks : SetOfMonads → SetOfMonads → Eval σ (Option Sheaf)) :
    Ensures (rObjectBlockInst env U Su Sm info noOptBlocks rOptBlocks) (AllEndWell Sm) := by
  refine Ensures.foldlM (I := AllEndWell Sm) _ (fun _ hmem => absurd hmem List.not_mem_nil)
    fun los o ho hlos => ?_
  obtain ⟨hfirst, hlast⟩ := hinst o (mem_objectsAtSm ((List.takeWhile_sublist _).subset ho))
  have hSm : o.first = Sm := by
    simpa using List.all_eq_true.mp List.all_takeWhile o ho
  refine Ensures.bind_right fun bDoObject => Ensures.ite (fun _ => ?_) fun _ => Ensures.pure hlos
  refine Ensures.bind_right fun pInner => Ensures.ite (fun _ => Ensures.pure hlos) fun _ => ?_
  refine Ensures.pure (List.forall_mem_append.mpr ⟨hlos, List.forall_mem_singleton.mpr ?_⟩)
  have hidD := o.idD_nonneg
  refine Straw.EndsWell.single ?_ ?_ ?_
  · exact decide_eq_false (by show ¬ o.idD = -1; omega)
  · show Sm - 1 ≤ o.monads.last
    omega
  · show 0 ≤ o.monads.last
    omega

/-- A gap ends well, and an optional one that is not there is skipped. -/
theorem endsWell_rGap {Sm : Int} (retrieval : ERetrieval) (obb : ObjectBlockBase)
    (noOptBlocks : Bool) (rOptBlocks : SetOfMonads → SetOfMonads → Eval σ (Option Sheaf))
    (emptyMo : Bool) :
    Ensures (rGap Su Sm retrieval obb noOptBlocks rOptBlocks emptyMo) fun pMO =>
      AllEndWell Sm (losOfGap pMO) ∧ ¬ (emptyMo = true ∧ Su.gapExists Sm = some none) ∨
        losOfGap pMO = [Straw.skipped Sm] ∧ emptyMo = true ∧ Su.gapExists Sm = some none := by
  have hnil : AllEndWell Sm (losOfGap none) := fun _ hmem => absurd hmem List.not_mem_nil
  refine (Ensures.ofOption fun gap hgap => hgap).bind fun gap hgap => ?_
  cases gap with
  | none =>
    exact Ensures.ite (fun hempty => Ensures.pure (Or.inr ⟨rfl, hempty, hgap⟩))
      fun hempty => Ensures.pure (Or.inl ⟨hnil, fun h => hempty h.1⟩)
  | some m =>
    have hthere : ¬ (emptyMo = true ∧ Su.gapExists Sm = some none) := by
      rw [hgap]
      simp
    refine (Ensures.ofOption fun somn hsomn => hsomn).bind fun somn hsomn => ?_
    have hlast := le_last_of_add hsomn
    have hnonneg : 0 ≤ somn.last := by
      obtain ⟨e, -, rfl⟩ := Option.map_eq_some_iff.mp hsomn
      show 0 ≤ if e.lastM > 0 then e.lastM else 0
      split <;> omega
    refine Ensures.bind_right fun pInner => ?_
    refine Ensures.ite (fun _ => Ensures.pure (Or.inl ⟨hnil, hthere⟩)) fun _ =>
      Ensures.pure (Or.inl ⟨?_, hthere⟩)
    refine List.forall_mem_singleton.mpr (Straw.EndsWell.single ?_ ?_ hnonneg)
    · cases decide (retrieval = .kRetrieveFocus) <;>
        cases !decide (retrieval = .kRetrieve ∨ retrieval = .kRetrieveFocus) <;> rfl
    · exact le_trans (sub_le_self Sm Int.one_nonneg) hlast

/-- `R_NOTEXIST` returns nothing or the placeholder. -/
theorem skipped_rNOTEXIST {Sm : Int} (afterNonNOTEXIST : Bool)
    (getSMI : SetOfMonads → SetOfMonads → Int → Eval σ (List Int))
    (rObjectBlock : SetOfMonads → SetOfMonads → Int → Eval σ (List Straw)) :
    Ensures (rNOTEXIST U Su Sm afterNonNOTEXIST getSMI rObjectBlock) fun los =>
      los = [] ∨ los = [Straw.skipped Sm] := by
  refine Ensures.bind_right fun smi => Ensures.bind_right fun bItWasThere => ?_
  exact Ensures.ite (fun _ => Ensures.pure (Or.inl rfl)) fun _ => Ensures.pure (Or.inr rfl)

end Hooked

end Emdros
