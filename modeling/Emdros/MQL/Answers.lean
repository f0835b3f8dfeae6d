/-
# The evaluator returns the meaning of a query (`mql_R.cpp`)

For a query without object references and `USING RANGE`, the evaluator never fails and returns the
sheaf of `Meaning`, whatever the state is (`rBlocks_answers`).  What a query must satisfy is
`Plain`: the insts are in order and have objects of the database, the sets of stars are not empty,
and a power block stands between two other blocks.

Section 1 is about single objects and gaps, section 2 about the loops, and section 3 has the
recursion for the evaluator that tries every monad of the universe.  By `EveryMonad` this is the one
that asks `getSMI`.
-/
import Emdros.Base.Yields
import Emdros.MQL.EveryMonad
import Emdros.MQL.Meaning

namespace Emdros

open Partial SpanList IntGaps

/-! ## 1. Objects and gaps -/

section Objects

variable {C S σ : Type} {holds : C → MonadedObject → Bool} {env : QueryEnv C S σ}
  {allM1 U Su : SetOfMonads} {Sm : Int} {info : ObjectBlockInfo C} {o : MonadedObject}

/-- The comparisons of the environment are those of the meaning, once the features of the object
have been retrieved. -/
def QueryEnv.Compares (env : QueryEnv C S σ) (holds : C → MonadedObject → Bool) : Prop :=
  ∀ s node o c, env.compare (env.retrieveFeatureValues node o s) c o none = holds c o

theorem exec_spec (hrep : o.monads.RepInv) (hne : o.monads.monadMs ≠ []) (hU : U.RepInv)
    (hSu : Su.RepInv) (c : MonadSetRelationClause) :
    ∃ r, c.exec o.monads U Su = some r ∧
      (r = true ↔ c.Holds o.monads.mem U.mem Su.mem) := by
  obtain ⟨operation, name⟩ := c
  have hrelated : ∀ som : SetOfMonads, som.RepInv →
      ∃ r, MonadSetRelationClause.exec ⟨operation, .kMSNSubstrate⟩ o.monads som som = some r ∧
        (r = true ↔ operation.Relates o.monads.mem som.mem) := by
    intro som hsom
    cases operation with
    | kMSROPartOf => exact SetOfMonads.partOf_of_nonempty hrep hsom hne
    | kMSROOverlap => exact ⟨_, rfl, SetOfMonads.overlap_iff hrep hsom⟩
    | kMSROStartsIn => exact ⟨_, rfl, SetOfMonads.startsIn_of_nonempty hrep hsom hne⟩
  cases name with
  | kMSNUniverse => exact hrelated U hU
  | kMSNSubstrate => exact hrelated Su hSu

theorem obeysFirstLast_of_obeyed (hSu : Su.RepInv) : ∀ {fl : EFirstLast}, fl.Obeyed o Su.mem →
    obeysFirstLast fl o Su = true
  | .kNoFirstLast, _ => rfl
  | .kFirst, h => decide_eq_true (StartMonadInfo.first_of_isLeast hSu h).symm
  | .kLast, h => decide_eq_true (StartMonadInfo.last_of_isGreatest hSu h).symm
  | .kFirstAndLast, h => decide_eq_true ⟨(StartMonadInfo.first_of_isLeast hSu h.1).symm,
      (StartMonadInfo.last_of_isGreatest hSu h.2).symm⟩

theorem obeyed_of_obeysFirstLast (hSu : Su.RepInv) (hne : Su.monadMs ≠ []) {fl : EFirstLast}
    (h : obeysFirstLast fl o Su = true) : fl.Obeyed o Su.mem := by
  have hfirst : IsLeast Su.mem Su.first := hSu.isLeast_first hne
  have hlast : IsGreatest Su.mem Su.last := hSu.isGreatest_last hne
  cases fl with
  | kNoFirstLast => trivial
  | kFirst =>
    have h₁ : o.first = Su.first := of_decide_eq_true h
    rw [EFirstLast.Obeyed, h₁]
    exact hfirst
  | kLast =>
    have h₁ : o.last = Su.last := of_decide_eq_true h
    rw [EFirstLast.Obeyed, h₁]
    exact hlast
  | kFirstAndLast =>
    obtain ⟨h₁, h₂⟩ : o.first = Su.first ∧ o.last = Su.last := of_decide_eq_true h
    rw [EFirstLast.Obeyed, h₁, h₂]
    exact ⟨hfirst, hlast⟩

/-- Where there is nothing to be related to, no object is. -/
theorem ne_nil_of_holds {c : MonadSetRelationClause} (hrep : o.monads.RepInv)
    (hne : o.monads.monadMs ≠ []) (hempty : Su.monadMs = [] → U.monadMs = [])
    (h : c.Holds o.monads.mem U.mem Su.mem) : Su.monadMs ≠ [] := by
  intro hnil
  obtain ⟨operation, name⟩ := c
  have hnone : operation.Relates o.monads.mem ∅ := by
    rw [MonadSetRelationClause.Holds, SetOfMonads.mem_eq_empty.mpr hnil,
      SetOfMonads.mem_eq_empty.mpr (hempty hnil)] at h
    cases name with
    | kMSNUniverse => exact h
    | kMSNSubstrate => exact h
  have hfirst := hrep.isLeast_first hne
  cases operation with
  | kMSROPartOf => exact hnone hfirst.1
  | kMSROOverlap =>
    obtain ⟨x, -, hx⟩ := hnone
    exact hx
  | kMSROStartsIn =>
    obtain ⟨x, -, hx⟩ := hnone
    exact hx

theorem rFeatures_run (henv : env.Compares holds) (horu : info.hasNonParentORUs = false) (s : σ)
    (node : Nat) :
    ∃ r, (rFeatures env info o).run (env.retrieveFeatureValues node o s)
        = some (r, env.retrieveFeatureValues node o s) ∧
      (r = true ↔ ∀ f, info.featureConstraints = some f →
        f.eval (fun c => holds c o) = true) := by
  unfold rFeatures
  cases hf : info.featureConstraints with
  | none => exact ⟨true, rfl, iff_of_true rfl fun f hf => absurd hf.symm (Option.some_ne_none f)⟩
  | some f =>
    refine ⟨rFfeatures (env.compare (env.retrieveFeatureValues node o s)) o none f, ?_, ?_⟩
    · rw [horu]
      rfl
    · rw [rFfeatures_eq, show (fun c => env.compare (env.retrieveFeatureValues node o s) c o none)
        = fun c => holds c o from funext fun c => henv s node o c]
      exact ⟨fun h g hg => Option.some.inj hg ▸ h, fun h => h f rfl⟩

open Classical in
/-- **The tests of an object** come to whether the block accepts it. -/
theorem doObject_yields (henv : env.Compares holds) (horu : info.hasNonParentORUs = false)
    (ho : o.IsIn allM1) (hU : U.RepInv) (hSu : Su.RepInv)
    (hempty : Su.monadMs = [] → U.monadMs = []) :
    Yields (doObject env U Su info o) (decide (info.Accepts holds U Su o)) := by
  obtain ⟨r, hexec, hr⟩ := exec_spec ho.repInv ho.ne_nil hU hSu info.msrc
  intro s
  unfold doObject
  by_cases hfl : obeysFirstLast info.firstLast o Su = true
  · rw [if_pos hfl, hexec, ofOption_some, pure_bind]
    by_cases hrelated : r = true
    · have hholds := hr.mp hrelated
      have hobeyed := obeyed_of_obeysFirstLast hSu
        (ne_nil_of_holds ho.repInv ho.ne_nil hempty hholds) hfl
      obtain ⟨b, hrun, hb⟩ := rFeatures_run (o := o) henv horu s info.obb.nodeNumber
      have haccepts : decide (info.Accepts holds U Su o) = b := by
        rw [Bool.eq_iff_iff, decide_eq_true_eq, hb]
        exact ⟨fun h => h.2.2, fun h => ⟨hobeyed, hholds, h⟩⟩
      rw [if_pos hrelated, haccepts]
      exact ⟨_, hrun⟩
    · rw [if_neg hrelated, decide_eq_false fun h => hrelated (hr.mpr h.2.1)]
      exact ⟨s, rfl⟩
  · rw [if_neg hfl, decide_eq_false fun h => hfl (obeysFirstLast_of_obeyed hSu h.1)]
    exact ⟨s, rfl⟩

theorem monadsBetween_of_add {first last : Int} {som : SetOfMonads}
    (h : SetOfMonads.empty.add first last = some som) : monadsBetween first last = som := by
  rw [monadsBetween, h]
  rfl

theorem innerSheaf_yields {x : Eval σ (Option Sheaf)} {inner : Option Sheaf} {noOptBlocks : Bool}
    (hnull : noOptBlocks = true → inner = none) (hx : Yields x inner) :
    Yields (innerSheaf noOptBlocks x) inner := by
  rw [innerSheaf]
  split
  · rename_i h
    rw [hnull h]
    exact Yields.pure none
  · exact hx

/-- What the inst must be like. -/
structure ObjectBlockInfo.Plain (allM1 : SetOfMonads) (info : ObjectBlockInfo C) : Prop where
  ordered : info.inst.Pairwise fun o o' => o.first ≤ o'.first
  noORUs : info.hasNonParentORUs = false
  objects : ∀ o ∈ info.inst, o.IsIn allM1

theorem takeWhile_dropWhile_eq {ι : Type} {f : ι → Int} {bound : Int} : ∀ {l : List ι},
    (l.Pairwise fun i j => f i ≤ f j) →
      (l.dropWhile fun i => f i < bound).takeWhile (fun i => f i = bound)
        = l.filter fun i => f i = bound
  | [], _ => rfl
  | first :: l, h => by
    obtain ⟨hfirst, hl⟩ := List.pairwise_cons.mp h
    rcases lt_trichotomy (f first) bound with hlt | heq | hgt
    · rw [List.dropWhile_cons, if_pos (decide_eq_true hlt),
        List.filter_cons_of_neg (by simpa using hlt.ne), takeWhile_dropWhile_eq hl]
    · rw [List.dropWhile_cons, if_neg (by simpa using heq.ge), List.takeWhile_cons,
        if_pos (decide_eq_true heq), List.filter_cons_of_pos (by simpa using heq),
        ← takeWhile_dropWhile_eq hl]
      cases l with
      | nil => rfl
      | cons i l =>
        have hi := hfirst i List.mem_cons_self
        rw [List.dropWhile_cons, if_neg (by simpa using heq.ge.trans hi)]
    · rw [List.dropWhile_cons, if_neg (by simpa using hgt.le), List.takeWhile_cons,
        if_neg (by simpa using hgt.ne')]
      refine (List.filter_eq_nil_iff.mpr fun i hi => ?_).symm
      rw [decide_eq_true_eq]
      rcases List.mem_cons.mp hi with rfl | hi
      · exact hgt.ne'
      · exact (hgt.trans_le (hfirst i hi)).ne'

theorem objectsStarting_eq (h : info.Plain allM1) :
    objectsStarting info Sm = info.inst.filter fun o => o.first = Sm := by
  rw [← takeWhile_dropWhile_eq (f := fun o : MonadedObject => o.first) h.ordered]
  unfold objectsStarting ObjectBlockInfo.objectsAtSm
  cases info.inst.dropWhile fun o => o.first < Sm with
  | nil => rfl
  | cons o rest =>
    dsimp only
    split
    · rename_i hne
      rw [List.takeWhile_cons_of_neg (by simpa using hne)]
      rfl
    · rfl

theorem flatMap_filter_eq {ι β : Type} {p : ι → Bool} {f : ι → List β} : ∀ l : List ι,
    (l.filter p).flatMap f = l.flatMap fun i => if p i = true then f i else []
  | [] => rfl
  | i :: l => by
    by_cases h : p i = true
    · rw [List.filter_cons_of_pos h, List.flatMap_cons, List.flatMap_cons, if_pos h,
        flatMap_filter_eq l]
    · rw [List.filter_cons_of_neg h, List.flatMap_cons, if_neg h, List.nil_append,
        flatMap_filter_eq l]

open Classical in
/-- **`R_object_block_inst`** returns the answers at the monad. -/
theorem rObjectBlockInst_yields (henv : env.Compares holds) (hinfo : info.Plain allM1)
    (hU : U.RepInv) (hSu : Su.RepInv) (hempty : Su.monadMs = [] → U.monadMs = [])
    {R : SetOfMonads → SetOfMonads → Eval σ (Option Sheaf)}
    {f : SetOfMonads → SetOfMonads → Option Sheaf} {noOptBlocks : Bool}
    (hnull : noOptBlocks = true → ∀ U Su, f U Su = none)
    (hR : ∀ U Su, IsSubstrate allM1 U Su → Yields (R U Su) (f U Su)) :
    Yields (rObjectBlockInst env U Su Sm info noOptBlocks R)
      ((info.inst.filter fun o => o.first = Sm ∧ info.Accepts holds U Su o).flatMap fun o =>
        withInner (f (monadsBetween o.first o.last) o.monads) fun inner =>
          MatchedObject.ofObject o.idD o.monads inner info.obb) := by
  have hfilter : (info.inst.filter fun o => o.first = Sm ∧ info.Accepts holds U Su o)
      = (objectsStarting info Sm).filter fun o => info.Accepts holds U Su o := by
    rw [objectsStarting_eq hinfo, List.filter_filter]
    refine List.filter_congr fun o _ => ?_
    rw [Bool.eq_iff_iff]
    simp [and_comm]
  rw [hfilter, rObjectBlockInst_eq, flatMap_filter_eq]
  refine Yields.collect fun o ho => ?_
  have hin := hinfo.objects o (of_mem_objectsStarting ho).1
  refine (doObject_yields henv hinfo.noORUs hin hU hSu hempty).bind ?_
  simp only [decide_eq_true_eq]
  split
  · obtain ⟨som, hadd, -⟩ := StartMonadInfo.add_spec SetOfMonads.repInv_empty
      (show o.first ≤ o.last by
        rw [hin.first, hin.last]
        exact hin.repInv.first_le_last hin.ne_nil)
      (hin.first ▸ (SetOfMonads.inRange_of_mem_cover hin.repInv.inRange
        (hin.repInv.isLeast_first hin.ne_nil).1).1)
      (hin.last ▸ (SetOfMonads.inRange_of_mem_cover hin.repInv.inRange
        (hin.repInv.isGreatest_last hin.ne_nil).1).2)
    rw [hadd, ofOption_some, monadsBetween_of_add hadd]
    refine (innerSheaf_yields (fun h => hnull h _ _)
      (hR som o.monads (hin.isSubstrate hadd))).bind ?_
    rw [withInner]
    split
    · exact Yields.pure _
    · exact Yields.pure _
  · exact Yields.pure _

/-- A gap is found where it starts... -/
theorem gapExistsLoop_of_isGap {b : Int} : ∀ {l : List MonadSetElement}, Sep l →
    IsGap (cover l) Sm b → SetOfMonads.gapExistsLoop Sm l = some (some b)
  | [], _, h => by
    have hbefore := h.before
    rw [cover_nil] at hbefore
    exact hbefore.elim
  | [cur], _, h => by
    obtain ⟨e, he, hlo, -⟩ := h.before
    obtain ⟨e', he', -, hhi⟩ := h.after
    have hle := h.le
    rw [List.mem_singleton.mp he, MonadSetElement.spanned_lo] at hlo
    rw [List.mem_singleton.mp he', MonadSetElement.spanned_hi] at hhi
    refine absurd ⟨cur, List.mem_singleton_self cur, ?_, ?_⟩ (h.missing Sm le_rfl hle)
    · rw [MonadSetElement.spanned_lo]
      omega
    · rw [MonadSetElement.spanned_hi]
      omega
  | cur :: next :: rest, hsep, h => by
    rw [SetOfMonads.gapExistsLoop]
    rcases (SetOfMonads.isGap_cover_cons_cons hsep).mp h with ⟨hstart, hend⟩ | hrest
    · rw [if_pos hstart, hend]
    · have hnext : next.firstM ≤ Sm - 1 := (sep_cons.mp hsep).2.head_le hrest.before
      have hgap : cur.lastM + 1 < next.firstM := (sep_cons.mp hsep).1 next List.mem_cons_self
      rw [if_neg (by omega), if_neg (by omega)]
      exact gapExistsLoop_of_isGap (sep_cons.mp hsep).2 hrest

/-- ...so `gapExists` says where it ends. -/
theorem gapExists_eq (hSu : Su.RepInv) : Su.gapExists Sm = some (gapAt Su.mem Sm) := by
  unfold gapAt
  split
  · rename_i h
    have hgap := h.choose_spec
    have hbefore := hSu.mem_bounds.1 hgap.before
    have hafter := hSu.mem_bounds.2 hgap.after
    have hle := hgap.le
    rw [SetOfMonads.gapExists, if_neg (by omega)]
    exact gapExistsLoop_of_isGap hSu.sep hgap
  · rename_i h
    obtain ⟨r, hr, -⟩ := FastSetOfMonads.gapExists_spec hSu Sm
    cases r with
    | none => exact hr
    | some b => exact absurd ⟨b, isGap_of_gapExists hSu hr⟩ h

/-- **`R_gap`** returns the answers of a gap block. -/
theorem rGap_yields (hall : allM1.IsRange) (hSu : IsSubstrate allM1 U Su)
    {R : SetOfMonads → SetOfMonads → Eval σ (Option Sheaf)}
    {f : SetOfMonads → SetOfMonads → Option Sheaf} {noOptBlocks : Bool}
    (hnull : noOptBlocks = true → ∀ U Su, f U Su = none)
    (hR : ∀ U Su, IsSubstrate allM1 U Su → Yields (R U Su) (f U Su)) (retrieval : ERetrieval)
    (obb : ObjectBlockBase) (emptyMo : Bool) :
    Yields (do
        let pMO ← rGap Su Sm retrieval obb noOptBlocks R emptyMo
        pure (losOfGap pMO))
      (match gapAt Su.mem Sm with
        | some m =>
          withInner (f (monadsBetween Sm m) (monadsBetween Sm m)) fun inner =>
            MatchedObject.ofGap (monadsBetween Sm m) obb (retrieval ≠ .kNoRetrieve)
              (retrieval = .kRetrieveFocus) inner
        | none => if emptyMo then [Straw.skipped Sm] else []) := by
  unfold rGap
  have hgap : Su.gapExists Sm = some (gapAt Su.mem Sm) := gapExists_eq hSu.repInv
  rw [hgap, ofOption_some, pure_bind]
  cases hat : gapAt Su.mem Sm with
  | none =>
    dsimp only
    split
    · exact Yields.pure _
    · exact Yields.pure _
  | some m =>
    rw [hat] at hgap
    have hin := isGap_of_gapExists hSu.repInv hgap
    have hfirst := hSu.mem_of_isGap hall hin le_rfl hin.le
    have hlast := hSu.mem_of_isGap hall hin hin.le le_rfl
    obtain ⟨som, hadd, -⟩ := StartMonadInfo.add_spec SetOfMonads.repInv_empty hin.le
      (SetOfMonads.inRange_of_mem_cover hall.repInv.inRange hfirst).1
      (SetOfMonads.inRange_of_mem_cover hall.repInv.inRange hlast).2
    have hretrieve : (!!(decide (retrieval = .kRetrieve ∨ retrieval = .kRetrieveFocus)))
        = decide (retrieval ≠ .kNoRetrieve) := by
      cases retrieval <;> rfl
    dsimp only
    rw [hadd, ofOption_some, pure_bind, bind_assoc, monadsBetween_of_add hadd, hretrieve]
    have hsub := isSubstrate_range hall hfirst hlast hadd
    refine (innerSheaf_yields (fun h => hnull h _ _) (hR som som hsub)).bind ?_
    rw [withInner]
    split
    · exact Yields.pure _
    · exact Yields.pure _

end Objects

/-! ## 2. Loops -/

section Loops

variable {C S σ : Type} {env : QueryEnv C S σ} {allM1 U Su : SetOfMonads} {Sm maxRange : Int}
  {R : Int → Eval σ (List Straw)} {f : Int → List Straw}

theorem itWasThere_yields (hR : ∀ m, Yields (R m) (f m)) : ∀ l : List Int,
    Yields (itWasThere R l) (l.any fun m => !(f m).isEmpty)
  | [] => Yields.pure false
  | m :: l => by
    rw [itWasThere, List.any_cons]
    refine (hR m).bind ?_
    cases (f m).isEmpty with
    | true => exact itWasThere_yields hR l
    | false => exact Yields.pure true

open Classical in
/-- **`NOTEXIST`** is answered by nothing if there is no answer. -/
theorem rNOTEXIST_yields {info : ObjectBlockInfo C} (hU : (notExistSet info Sm U).RepInv)
    {rObjectBlock : SetOfMonads → SetOfMonads → Int → Eval σ (List Straw)}
    (hR : ∀ m, Yields (rObjectBlock (notExistSet info Sm U) (notExistSet info Sm Su) m) (f m)) :
    Yields (rNOTEXIST U Su Sm info.isAfterNonNOTEXISTInBlockString
        (fun U _ Sm => pure (everyMonad U Sm)) rObjectBlock)
      (if ∃ m ∈ (notExistSet info Sm U).mem, notExistStart info U Sm ≤ m ∧ f m ≠ [] then []
        else [Straw.skipped Sm]) := by
  change Yields (do
    let smi ← pure (everyMonad (notExistSet info Sm U) (notExistStart info U Sm))
    let bItWasThere ← itWasThere (rObjectBlock (notExistSet info Sm U) (notExistSet info Sm Su)) smi
    if bItWasThere then pure [] else pure [Straw.skipped Sm]) _
  rw [pure_bind]
  refine (itWasThere_yields hR _).bind ?_
  have hany : ((everyMonad (notExistSet info Sm U) (notExistStart info U Sm)).any
      fun m => !(f m).isEmpty) = true ↔
        ∃ m ∈ (notExistSet info Sm U).mem, notExistStart info U Sm ≤ m ∧ f m ≠ [] := by
    simp only [List.any_eq_true, mem_everyMonad hU, and_assoc, Bool.not_eq_true',
      List.isEmpty_eq_false_iff]
  simp only [hany]
  split
  · exact Yields.pure _
  · exact Yields.pure _

theorem nonPowerBlock_yields {node : Nat} {rFirst : Eval σ (List Straw)} {first : List Straw}
    (hfirst : Yields rFirst first) (hR : ∀ m, Yields (R m) (f m)) :
    Yields (rBlockString2NonPowerBlock env node rFirst R)
      (first.flatMap fun straw => prependToAll straw (f (straw.last + 1))) := by
  rw [rBlockString2NonPowerBlock]
  refine hfirst.bind ?_
  rw [← List.nil_append (first.flatMap _)]
  refine Yields.foldlM_append (fun straw _ result => ?_) []
  exact Yields.modify ((hR _).bind (Yields.pure _))

open Classical in
/-- The monads at which the loop behind a power block tries, if it does. -/
theorem powerBlock_tries (hSu : IsSubstrate allM1 U Su) (power : Power) (last : Int)
    (h : ((rRestrict Su (last + 1 + min power.limitLow (min power.limitHigh maxRange))).isEmpty)
      = false) :
    ((everyMonad U (last + 1 + min power.limitLow (min power.limitHigh maxRange))).takeWhile
      fun m => m ≤ if min power.limitHigh maxRange = maxMonad
        then (rRestrict Su (last + 1 + min power.limitLow (min power.limitHigh maxRange))).last
        else min (last + 1 + min power.limitHigh maxRange)
          (rRestrict Su (last + 1 + min power.limitLow (min power.limitHigh maxRange))).last)
      = U.constMonads.filter fun m => power.Allows maxRange last m := by
  generalize hlow : min power.limitLow (min power.limitHigh maxRange) = low at h ⊢
  generalize hhigh : min power.limitHigh maxRange = high at hlow ⊢
  obtain ⟨hrep, hmem⟩ := rRestrict_spec hSu.repInv (last + 1 + low)
  have hle := (le_last_of_rRestrict hSu.repInv h).2
  have hlast : (rRestrict Su (last + 1 + low)).last = Su.last := by
    have hgreatest : IsGreatest Su.mem Su.last := hSu.repInv.isGreatest_last hSu.ne_nil
    refine StartMonadInfo.last_of_isGreatest hrep ?_
    rw [hmem]
    exact ⟨⟨hgreatest.1, hle⟩, fun m hm => hgreatest.2 hm.1⟩
  rw [hlast]
  refine List.Pairwise.eq_of_mem_iff
    ((everyMonad_ascends hSu.rangeRep _).sublist (List.takeWhile_sublist _))
    ((SetOfMonads.constMonads_ascends hSu.rangeRep).sublist List.filter_sublist) fun m => ?_
  rw [mem_takeWhile_le (everyMonad_ascends hSu.rangeRep _), mem_everyMonad hSu.rangeRep,
    List.mem_filter, SetOfMonads.mem_constMonads hSu.rangeRep, decide_eq_true_eq, Power.Allows,
    hhigh, hlow, and_assoc]
  refine and_congr_right fun hm => ?_
  have hmlast := (hSu.mem_universe.mp hm).2
  by_cases hmax : high = maxMonad
  · rw [if_pos hmax]
    constructor
    · exact fun h => ⟨by omega, Or.inl hmax⟩
    · exact fun h => ⟨by omega, hmlast⟩
  · rw [if_neg hmax, le_min_iff]
    constructor
    · exact fun h => ⟨by omega, Or.inr (by omega)⟩
    · rintro ⟨h₁, h₂ | h₂⟩
      · exact absurd h₂ hmax
      · exact ⟨by omega, by omega, hmlast⟩

open Classical in
/-- **A power block**: what comes after it is tried at the monads that it allows. -/
theorem powerBlock_yields (hSu : IsSubstrate allM1 U Su) {node : Nat} {power : Power}
    {rFirst : Eval σ (List Straw)} {first : List Straw} (hfirst : Yields rFirst first)
    (hR : ∀ m, Yields (R m) (f m)) :
    Yields (rBlockString2PowerBlock env U Su maxRange node power rFirst
        (fun m => pure (everyMonad U m)) R)
      (first.flatMap fun straw =>
        (U.constMonads.filter fun m => power.Allows maxRange straw.last m).flatMap fun m =>
          prependToAll straw (f m)) := by
  rw [rBlockString2PowerBlock]
  refine hfirst.bind ?_
  dsimp only
  rw [← List.nil_append (first.flatMap _)]
  refine Yields.foldlM_append (fun straw _ result => ?_) []
  refine Yields.modify ?_
  split
  · rename_i hcond
    obtain ⟨-, hne⟩ := Bool.and_eq_true_iff.mp hcond
    rw [pure_bind, powerBlock_tries hSu power straw.last (by simpa using hne)]
    exact Yields.foldlM_append (fun m _ result => (hR m).bind (Yields.pure _)) result
  · rename_i hcond
    have hnone : (U.constMonads.filter fun m => power.Allows maxRange straw.last m) = [] := by
      refine List.filter_eq_nil_iff.mpr fun m hm hallows => hcond ?_
      rw [SetOfMonads.mem_constMonads hSu.rangeRep] at hm
      obtain ⟨hlow, -⟩ := of_decide_eq_true hallows
      have hmlast := (hSu.mem_universe.mp hm).2
      have hlast : IsGreatest Su.mem Su.last := hSu.repInv.isGreatest_last hSu.ne_nil
      have hrest : ∀ (som : SetOfMonads) (x : Int), som.RepInv → x ∈ som.mem →
          straw.last + 1 + min power.limitLow (min power.limitHigh maxRange) ≤ x →
          (rRestrict som (straw.last + 1 +
            min power.limitLow (min power.limitHigh maxRange))).isEmpty = false := by
        intro som x hsom hx hle
        refine StartMonadInfo.isEmpty_of_ne (StartMonadInfo.ne_nil_of_mem (m := x) ?_)
        rw [(rRestrict_spec hsom _).2]
        exact ⟨hx, hle⟩
      rw [hrest U m hSu.rangeRep hm (by omega), hrest Su Su.last hSu.repInv hlast.1 (by omega)]
      rfl
    rw [hnone, List.flatMap_nil, List.append_nil]
    exact Yields.pure result

/-- Where the straws do not depend on the state, the levels of a star are the repetitions. -/
theorem extends_eq (hR : ∀ m, Yields (R m) (f m)) {L L' : List (List Straw)}
    (h : Extends R Sm L L') :
    L' = L.flatMap fun ts => (f (nextMonad Sm ts)).map fun t => ts ++ [t] := by
  induction h with
  | nil => rfl
  | cons returns rest ih => rw [List.flatMap_cons, ← ih, (hR _).eq_of_returns returns]

/-- **A star** returns its repetitions. -/
theorem rStar_yields {starSOM : SetOfMonads} (hs : starSOM.IsStarSet)
    (hR : ∀ m, Yields (R m) (f m)) : Yields (rStar starSOM Sm R) (starStraws starSOM Sm f) := by
  refine Yields.of_total (rStar_total hs fun m => (hR m).total) ?_
  refine (rStar_denotes hs).mono ?_
  rintro los ⟨level, hzero, hnext, hlos, -⟩
  have hlevel : ∀ n : Nat, (n : Int) ≤ starSOM.last → level n = repetitions f Sm n := by
    intro n
    induction n with
    | zero => exact fun _ => hzero
    | succ n ih =>
      intro hn
      rw [extends_eq hR (hnext n (by omega)), ih (by omega), repetitions]
  rw [hlos, starStraws]
  refine congrArg₂ _ rfl (List.flatMap_congr fun n hn => ?_)
  have hbound := (List.mem_range'_1.mp (List.mem_filter.mp hn).1).2
  have hnonneg := hs.last_nonneg
  rw [hlevel n (by omega)]

theorem filtered_append (los los' : List Straw) : ListOfStraws.filtered (los ++ los')
    = ListOfStraws.filtered los ++ ListOfStraws.filtered los' := by
  simp [ListOfStraws.filtered]

/-- The loop of `R_blocks` without a range and a callback keeps what it has filtered in its
result. -/
theorem blocksLoop_run {pResultLOS : Nat} (hR : ∀ m, Yields (R m) (f m)) : ∀ (l : List Int)
    (v : BlocksLoop) (mine : List Straw) (s : σ), v.bContinueExecution = true →
    v.heap.cell pResultLOS = some mine →
    ∃ v' s', (blocksLoop none true none pResultLOS R l v).run s = some (v', s') ∧
      v'.bContinueExecution = true ∧
      v'.heap.cell pResultLOS = some (mine ++ ListOfStraws.filtered (l.flatMap f)) ∧
      (v'.bSuccess = true ↔ v.bSuccess = true ∨ l.flatMap f ≠ [])
  | [], v, mine, s, hv, hmine =>
    ⟨v, s, rfl, hv, by rw [hmine]; simp [ListOfStraws.filtered], by simp⟩
  | m :: l, v, mine, s, hv, hmine => by
    obtain ⟨s₁, hrun⟩ := hR m s
    by_cases hempty : (f m).isEmpty = true
    · have hnil := List.isEmpty_iff.mp hempty
      rw [hnil] at hrun
      rw [run_blocksLoop_empty hv hrun, List.flatMap_cons, hnil, List.nil_append]
      exact blocksLoop_run hR l v mine s₁ hv hmine
    · have hlt := Heap.lt_next hmine
      obtain ⟨heap, hsubsume, hcell, -, -, -⟩ := run_appendAndSubsumeWhileFiltering
        (Heap.cell_alloc hmine (f m)) (Heap.cell_alloc_self v.heap (f m)) hlt.ne
      obtain ⟨v', s', hrest, hv', hcell', hsuccess⟩ := blocksLoop_run hR l
        { heap, count := v.count, bSuccess := true, bContinueExecution := true } _ s₁ rfl hcell
      refine ⟨v', s', ?_, hv', ?_, ?_⟩
      · have hbatch : (rangeBatch none v.count v.heap.next).run (v.heap.alloc (f m))
            = some (.store v.count v.heap.next, v.heap.alloc (f m)) := rfl
        have hstore : (storeLOS (σ := σ) none true pResultLOS v.heap.next
            (v.heap.alloc (f m))).run s₁ = some ((heap, true), s₁) := by
          rw [storeLOS, run_bind_of_some (run_ofOption_some hsubsume s₁)]
          rfl
        rw [blocksLoop, if_pos hv, run_bind_of_some hrun, if_neg hempty,
          run_bind_of_some (run_ofOption_some hbatch s₁)]
        exact (run_bind_of_some hstore).trans hrest
      · rw [hcell', List.flatMap_cons, filtered_append, List.append_assoc]
      · rw [hsuccess, List.flatMap_cons]
        have hne : f m ≠ [] := fun h => hempty (List.isEmpty_iff.mpr h)
        simp [hne]

/-- **`R_blocks`** on a block string that is tried at a list of monads. -/
theorem rBlocksOfBlockString_yields (hR : ∀ m, Yields (R m) (f m)) (l : List Int) :
    Yields (rBlocksOfBlockString none true none (pure l) R)
      (if l.flatMap f = [] then .fail else .plist (ListOfStraws.filtered (l.flatMap f))) := by
  intro s
  obtain ⟨v, s', hrun, hv, hcell, hsuccess⟩ := blocksLoop_run hR l
    { heap := Heap.empty.alloc [], count := 0, bSuccess := false, bContinueExecution := true }
    [] s rfl (Heap.cell_alloc_self Heap.empty [])
  refine ⟨s', ?_⟩
  change (rBlockStringFrom none true true none (pure l) R).run s = _
  rw [rBlockStringFrom, pure_bind, run_bind_of_some hrun,
    run_bind_of_some (run_ofOption_some (Heap.run_read hcell) s'), hv]
  rw [List.nil_append]
  by_cases hnil : l.flatMap f = []
  · have hfail : v.bSuccess = false := by
      rw [← Bool.not_eq_true, hsuccess]
      simp [hnil]
    rw [hfail, if_pos hnil]
    rfl
  · rw [hsuccess.mpr (Or.inr hnil), if_neg hnil]
    rfl

end Loops

/-! ## 3. Queries -/

section Plain

variable {C : Type} (allM1 : SetOfMonads)

mutual

/-- What a query must be like to have the meaning: insts in order and without object references, no
`USING RANGE`, sets of stars that are not empty, and no power block but between two other blocks. -/
def ObjectBlock.Plain : ObjectBlock C → Prop
  | .mk info optBlocks => info.Plain allM1 ∧ optBlocks.Plain

def GapBlock.Plain : GapBlock C → Prop
  | .mk _ _ optBlocks => optBlocks.Plain

def OptBlocks.Plain : OptBlocks C → Prop
  | .null => True
  | .blocks b => b.Plain

def Block.Plain : Block C → Prop
  | .gapBlock b => b.Plain
  | .optGapBlock b => b.Plain
  | .powerBlock _ => False
  | .objectBlock b => b.Plain
  | .objectBlockNOTEXIST b => b.Plain

def BlockString0.Plain : BlockString0 C → Prop
  | .block b => b.Plain
  | .blockString b => b.Plain

def BlockString1.Plain : BlockString1 C → Prop
  | .nonStar b => b.Plain
  | .star b starSOM => starSOM.IsStarSet ∧ b.Plain

def BlockString2.Plain : BlockString2 C → Prop
  | .blockString1 _ b => b.Plain
  | .sequence _ b (.blockString1 _ next) => b.Plain ∧ next.Plain
  | .sequence _ b (.sequence node next nextButOne) => b.Plain ∧
    match next.getPowerBlock with
    | some _ => nextButOne.Plain
    | none => (BlockString2.sequence node next nextButOne).Plain

def BlockString.Plain : BlockString C → Prop
  | .blockString2 b => b.Plain
  | .or b rest => b.Plain ∧ rest.Plain

def ObjectBlockString.Plain : ObjectBlockString C → Prop
  | .objectBlock b => b.Plain
  | .append bs b => bs.Plain ∧ b.Plain

def Blocks.Plain : Blocks C → Prop
  | .blockString usingRange b => usingRange = none ∧ b.Plain
  | .unorderedGroup b => b.Plain

end

variable {allM1}

/-- A plain block is no power block. -/
theorem getPowerBlock_of_plain : ∀ {b : BlockString1 C}, b.Plain allM1 → b.getPowerBlock = none
  | .nonStar (.block (.gapBlock _)), _ => rfl
  | .nonStar (.block (.optGapBlock _)), _ => rfl
  | .nonStar (.block (.objectBlock _)), _ => rfl
  | .nonStar (.block (.objectBlockNOTEXIST _)), _ => rfl
  | .nonStar (.blockString _), _ => rfl
  | .star (.block (.gapBlock _)) _, _ => rfl
  | .star (.block (.optGapBlock _)) _, _ => rfl
  | .star (.block (.objectBlock _)) _, _ => rfl
  | .star (.block (.objectBlockNOTEXIST _)) _, _ => rfl
  | .star (.blockString _) _, _ => rfl
  | .nonStar (.block (.powerBlock _)), h => h.elim
  | .star (.block (.powerBlock _)) _, h => h.2.elim

theorem sheaf_of_isNull (holds : C → MonadedObject → Bool) : ∀ {b : OptBlocks C},
    b.isNull = true → ∀ U Su, b.sheaf holds U Su maxMonad = none
  | .null, _, _, _ => by rw [OptBlocks.sheaf]
  | .blocks _, h, _, _ => absurd h Bool.false_ne_true

end Plain

section Answers

variable {C S σ : Type} {holds : C → MonadedObject → Bool} {env : QueryEnv C S σ}
  {allM1 U Su : SetOfMonads} {Sm : Int}

theorem everyMonad_first (hSu : IsSubstrate allM1 U Su) :
    everyMonad U Su.first = U.constMonads := by
  refine List.Pairwise.eq_of_mem_iff (everyMonad_ascends hSu.rangeRep _)
    (SetOfMonads.constMonads_ascends hSu.rangeRep) fun m => ?_
  rw [mem_everyMonad hSu.rangeRep, SetOfMonads.mem_constMonads hSu.rangeRep]
  exact and_iff_left_of_imp fun hm => (hSu.mem_universe.mp hm).1

/-- The universe and substrate of a `NOTEXIST` block; behind the end of the substrate both are
empty. -/
theorem notExistSets (hSu : IsSubstrate allM1 U Su) (info : ObjectBlockInfo C) (Sm : Int) :
    (notExistSet info Sm U).RepInv ∧ (notExistSet info Sm Su).RepInv ∧
      ((notExistSet info Sm Su).monadMs = [] → (notExistSet info Sm U).monadMs = []) := by
  unfold notExistSet
  split
  · obtain ⟨hrepU, hmemU⟩ := rRestrict_spec hSu.rangeRep Sm
    obtain ⟨hrep, hmem⟩ := rRestrict_spec hSu.repInv Sm
    refine ⟨hrepU, hrep, fun hnil => ?_⟩
    by_contra hne
    have hgreatest := (hrepU.isGreatest_last hne).1
    rw [hmemU] at hgreatest
    have hin : Su.last ∈ (rRestrict Su Sm).mem := by
      rw [hmem]
      exact ⟨(hSu.repInv.isGreatest_last hSu.ne_nil).1,
        hgreatest.2.trans (hSu.mem_universe.mp hgreatest.1).2⟩
    exact StartMonadInfo.ne_nil_of_mem hin hnil
  · exact ⟨hSu.rangeRep, hSu.repInv, fun hnil => absurd hnil hSu.ne_nil⟩

theorem objectBlockLOS_yields (hSu : IsSubstrate allM1 U Su) {R : Int → Eval σ (List Straw)}
    {f : Int → List Straw} (hR : ∀ m, Yields (R m) (f m)) :
    Yields (objectBlockLOS true (pure (everyMonad U Su.first)) R) (U.constMonads.flatMap f) := by
  rw [objectBlockLOS, pure_bind, if_pos rfl, everyMonad_first hSu,
    ← List.nil_append (U.constMonads.flatMap f)]
  exact Yields.foldlM_append (fun m _ result => (hR m).bind (Yields.pure _)) []

open Classical in
theorem rBlocksOfUnorderedGroup_yields (losList : List (List Straw)) :
    Yields (rBlocksOfUnorderedGroup (σ := σ) none true losList)
      (if [] ∈ losList then .fail else .plist losList.flatten) := by
  rw [rBlocksOfUnorderedGroup]
  by_cases hempty : [] ∈ losList
  · have hall : (losList.all fun los => !los.isEmpty) = false := by
      rw [List.all_eq_false]
      exact ⟨[], hempty, by simp⟩
    rw [hall, if_pos hempty]
    exact Yields.pure _
  · have hall : (losList.all fun los => !los.isEmpty) = true := by
      rw [List.all_eq_true]
      intro los hlos
      rw [Bool.not_eq_true', List.isEmpty_eq_false_iff]
      exact fun hnil => hempty (hnil ▸ hlos)
    rw [hall, if_neg hempty]
    exact Yields.pure _

mutual

theorem rObjectBlock_yields (henv : env.Compares holds) (hall : allM1.IsRange)
    {U Su : SetOfMonads} (hU : U.RepInv) (hSu : Su.RepInv)
    (hempty : Su.monadMs = [] → U.monadMs = []) : ∀ (b : ObjectBlock C), b.Plain allM1 →
    ∀ Sm : Int, Yields (Evaluator.rObjectBlock env.withEveryMonad (fun _ => rBlocksOfUnorderedGroup)
      b U Su Sm) (b.straws holds U Su Sm)
  | .mk info optBlocks, hb, Sm => by
    rw [Evaluator.rObjectBlock, ObjectBlock.straws]
    have hcompares : env.withEveryMonad.Compares holds := henv
    exact rObjectBlockInst_yields hcompares hb.1 hU hSu hempty (sheaf_of_isNull holds)
      fun U Su hSu => rOptBlocks_yields henv hall hSu maxMonad optBlocks hb.2

theorem rGapBlock_yields (henv : env.Compares holds) (hall : allM1.IsRange)
    {U Su : SetOfMonads} (hSu : IsSubstrate allM1 U Su) : ∀ (b : GapBlock C), b.Plain allM1 →
    ∀ (Sm : Int) (emptyMo : Bool), Yields (do
        let pMO ← Evaluator.rGapBlock env.withEveryMonad (fun _ => rBlocksOfUnorderedGroup) b Su Sm
          emptyMo
        pure (losOfGap pMO)) (b.straws holds Su Sm emptyMo)
  | .mk retrieval obb optBlocks, hb, Sm, emptyMo => by
    rw [Evaluator.rGapBlock, GapBlock.straws]
    exact rGap_yields hall hSu (sheaf_of_isNull holds)
      (fun U Su hSu => rOptBlocks_yields henv hall hSu maxMonad optBlocks hb) retrieval obb emptyMo

theorem rOptBlocks_yields (henv : env.Compares holds) (hall : allM1.IsRange)
    {U Su : SetOfMonads} (hSu : IsSubstrate allM1 U Su) (maxRange : Int) :
    ∀ (b : OptBlocks C), b.Plain allM1 →
      Yields (Evaluator.rOptBlocks env.withEveryMonad (fun _ => rBlocksOfUnorderedGroup) b U Su
        maxRange) (b.sheaf holds U Su maxRange)
  | .null, _ => by
    rw [Evaluator.rOptBlocks, OptBlocks.sheaf]
    exact Yields.pure none
  | .blocks b, hb => by
    rw [Evaluator.rOptBlocks, OptBlocks.sheaf]
    exact (rBlocks_yields henv hall hSu maxRange b hb).bind (Yields.pure _)

theorem rBlock_yields (henv : env.Compares holds) (hall : allM1.IsRange)
    {U Su : SetOfMonads} (hSu : IsSubstrate allM1 U Su) : ∀ (b : Block C), b.Plain allM1 →
    ∀ Sm : Int, Yields (Evaluator.rBlock env.withEveryMonad (fun _ => rBlocksOfUnorderedGroup)
      b U Su Sm) (b.straws holds U Su Sm)
  | .gapBlock b, hb, Sm => by
    rw [Evaluator.rBlock, Block.straws]
    exact rGapBlock_yields henv hall hSu b hb Sm false
  | .optGapBlock b, hb, Sm => by
    rw [Evaluator.rBlock, Block.straws]
    exact rGapBlock_yields henv hall hSu b hb Sm true
  | .objectBlock b, hb, Sm => by
    rw [Evaluator.rBlock, Block.straws]
    exact rObjectBlock_yields henv hall hSu.rangeRep hSu.repInv (absurd · hSu.ne_nil) b hb Sm
  | .objectBlockNOTEXIST (.mk info optBlocks), hb, Sm => by
    rw [Evaluator.rBlock, Block.straws]
    obtain ⟨hrepU, hrep, hempty⟩ := notExistSets hSu info Sm
    refine rNOTEXIST_yields hrepU fun m => ?_
    rw [ObjectBlock.straws]
    have hcompares : env.withEveryMonad.Compares holds := henv
    exact rObjectBlockInst_yields hcompares hb.1 hrepU hrep hempty (sheaf_of_isNull holds)
      fun U Su hSu => rOptBlocks_yields henv hall hSu maxMonad optBlocks hb.2

theorem rBlockString0_yields (henv : env.Compares holds) (hall : allM1.IsRange)
    {U Su : SetOfMonads} (hSu : IsSubstrate allM1 U Su) (maxRange : Int) :
    ∀ (b : BlockString0 C), b.Plain allM1 → ∀ Sm : Int,
      Yields (Evaluator.rBlockString0 env.withEveryMonad (fun _ => rBlocksOfUnorderedGroup) b U Su
        Sm maxRange) (b.straws holds U Su Sm maxRange)
  | .block b, hb, Sm => by
    rw [Evaluator.rBlockString0, BlockString0.straws]
    exact rBlock_yields henv hall hSu b hb Sm
  | .blockString b, hb, Sm => by
    rw [Evaluator.rBlockString0, BlockString0.straws]
    exact rBlockString_yields henv hall hSu maxRange b hb Sm

theorem rBlockString1_yields (henv : env.Compares holds) (hall : allM1.IsRange)
    {U Su : SetOfMonads} (hSu : IsSubstrate allM1 U Su) (maxRange : Int) :
    ∀ (b : BlockString1 C), b.Plain allM1 → ∀ Sm : Int,
      Yields (Evaluator.rBlockString1 env.withEveryMonad (fun _ => rBlocksOfUnorderedGroup) b U Su
        Sm maxRange) (b.straws holds U Su Sm maxRange)
  | .nonStar b, hb, Sm => by
    rw [Evaluator.rBlockString1, BlockString1.straws]
    exact rBlockString0_yields henv hall hSu maxRange b hb Sm
  | .star b starSOM, hb, Sm => by
    rw [Evaluator.rBlockString1, BlockString1.straws]
    exact rStar_yields hb.1 (rBlockString0_yields henv hall hSu maxRange b hb.2)

theorem rBlockString2_yields (henv : env.Compares holds) (hall : allM1.IsRange)
    {U Su : SetOfMonads} (hSu : IsSubstrate allM1 U Su) (maxRange : Int) :
    ∀ (b : BlockString2 C), b.Plain allM1 → ∀ Sm : Int,
      Yields (Evaluator.rBlockString2 env.withEveryMonad (fun _ => rBlocksOfUnorderedGroup) b U Su
        Sm maxRange) (b.straws holds U Su Sm maxRange)
  | .blockString1 _ b, hb, Sm => by
    rw [Evaluator.rBlockString2, BlockString2.straws]
    exact rBlockString1_yields henv hall hSu maxRange b hb Sm
  | .sequence node b (.blockString1 node' next), hb, Sm => by
    rw [Evaluator.rBlockString2, BlockString2.straws, getPowerBlock_of_plain hb.2]
    exact nonPowerBlock_yields (rBlockString1_yields henv hall hSu maxRange b hb.1 Sm)
      (rBlockString2_yields henv hall hSu maxRange (.blockString1 node' next) hb.2)
  | .sequence node b (.sequence node' next nextButOne), hb, Sm => by
    rw [Evaluator.rBlockString2, BlockString2.straws]
    have hfirst := rBlockString1_yields henv hall hSu maxRange b hb.1 Sm
    have hrest := hb.2
    cases hpower : next.getPowerBlock with
    | some power =>
      rw [hpower] at hrest
      exact powerBlock_yields hSu hfirst
        (rBlockString2_yields henv hall hSu maxRange nextButOne hrest)
    | none =>
      rw [hpower] at hrest
      exact nonPowerBlock_yields hfirst (rBlockString2_yields henv hall hSu maxRange
        (.sequence node' next nextButOne) hrest)

theorem rBlockString_yields (henv : env.Compares holds) (hall : allM1.IsRange)
    {U Su : SetOfMonads} (hSu : IsSubstrate allM1 U Su) (maxRange : Int) :
    ∀ (b : BlockString C), b.Plain allM1 → ∀ Sm : Int,
      Yields (Evaluator.rBlockString env.withEveryMonad (fun _ => rBlocksOfUnorderedGroup) b U Su
        Sm maxRange) (b.straws holds U Su Sm maxRange)
  | .blockString2 b, hb, Sm => by
    rw [Evaluator.rBlockString, BlockString.straws]
    exact rBlockString2_yields henv hall hSu maxRange b hb Sm
  | .or b rest, hb, Sm => by
    rw [Evaluator.rBlockString, BlockString.straws]
    refine (rBlockString2_yields henv hall hSu maxRange b hb.1 Sm).bind
      ((rBlockString_yields henv hall hSu maxRange rest hb.2 Sm).bind ?_)
    split
    · rename_i hnil
      rw [List.isEmpty_iff.mp hnil, List.nil_append]
      exact Yields.pure _
    · split
      · rename_i hnil
        rw [List.isEmpty_iff.mp hnil, List.append_nil]
        exact Yields.pure _
      · exact Yields.pure _

theorem rObjectBlockString_yields (henv : env.Compares holds) (hall : allM1.IsRange)
    {U Su : SetOfMonads} (hSu : IsSubstrate allM1 U Su) : ∀ (b : ObjectBlockString C),
    b.Plain allM1 →
      Yields (Evaluator.rObjectBlockString env.withEveryMonad (fun _ => rBlocksOfUnorderedGroup) b
        U Su true) (b.strawLists holds U Su)
  | .objectBlock b, hb => by
    rw [Evaluator.rObjectBlockString, ObjectBlockString.strawLists]
    exact (objectBlockLOS_yields hSu (rObjectBlock_yields henv hall hSu.rangeRep hSu.repInv
      (absurd · hSu.ne_nil) b hb)).bind (Yields.pure _)
  | .append bs b, hb => by
    rw [Evaluator.rObjectBlockString, ObjectBlockString.strawLists]
    exact (objectBlockLOS_yields hSu (rObjectBlock_yields henv hall hSu.rangeRep hSu.repInv
      (absurd · hSu.ne_nil) b hb.2)).bind
        ((rObjectBlockString_yields henv hall hSu bs hb.1).bind (Yields.pure _))

theorem rBlocks_yields (henv : env.Compares holds) (hall : allM1.IsRange)
    {U Su : SetOfMonads} (hSu : IsSubstrate allM1 U Su) (maxRange : Int) :
    ∀ (b : Blocks C), b.Plain allM1 →
      Yields (Evaluator.rBlocks env.withEveryMonad (fun _ => rBlocksOfUnorderedGroup) b U Su
        maxRange none true) (b.sheaf holds U Su maxRange)
  | .blockString usingRange b, hb => by
    rw [Evaluator.rBlocks, Blocks.sheaf, hb.1, ← everyMonad_first hSu]
    exact rBlocksOfBlockString_yields (rBlockString_yields henv hall hSu maxRange b hb.2) _
  | .unorderedGroup b, hb => by
    rw [Evaluator.rBlocks, Blocks.sheaf]
    exact (rObjectBlockString_yields henv hall hSu b hb).bind (rBlocksOfUnorderedGroup_yields _)

end

/-- **The evaluator returns the meaning of the query.**  Whatever the state is, there is no
exception, and the sheaf is the one that the query means. -/
theorem rBlocks_answers (henv : env.Compares holds) (e : StartMonadEnv) (hall : e.allM1.IsRange)
    (blocks : Blocks C) (hplain : blocks.Plain e.allM1) (hsearchable : blocks.Searchable e)
    (hSu : IsSubstrate e.allM1 U Su) (maxRange : Int) (s : σ) :
    ∃ s', (rBlocks (env.withStartMonads e) blocks U Su maxRange none true).run s
      = some (blocks.sheaf holds U Su maxRange, s') := by
  rw [rBlocks, rBlocks_every hall hSu maxRange blocks hsearchable]
  exact rBlocks_yields henv hall hSu maxRange blocks hplain s

end Answers

end Emdros
