/-
# `SELECT ... OBJECTS` up to the sheaf (`mql_select_statements.cpp`)

`QueryBase::myMonads` makes the substrate of a query: the monads of the `IN` clause, as far as the
database has them.  `QueryBase::myExec` makes the universe of it and calls `R_topograph`.  The
database's monads are those from `min_m` to `max_m` (`getAll_m_1`).

`selectQuery_answers` puts together what the substrate is and what the evaluator returns on it.
Left out are the passes before, which leave in the blocks what the model of a query has, and the
flattening of the sheaf.
-/
import Emdros.MQL.Answers
import Emdros.MQL.MonadSetChain

namespace Emdros

open Partial

/-! ## 1. The monads of the database -/

/-- The set that `EMdFDB::getAll_m_1` makes of `min_m` and `max_m`; `none` is a
`BadMonadsException`. -/
def allM1Between (minM maxM : Int) : Option SetOfMonads :=
  if minM = maxMonad ∧ maxM = 0 then some SetOfMonads.empty
  else SetOfMonads.empty.add minM maxM

theorem allM1Between_spec {minM maxM : Int} {allM1 : SetOfMonads} (hmin : 0 ≤ minM)
    (hmax : maxM ≤ maxMonad) (h : allM1Between minM maxM = some allM1) :
    allM1.IsRange ∧ allM1.mem = Set.Icc minM maxM := by
  unfold allM1Between at h
  split at h
  · rename_i hempty
    obtain rfl := Option.some.inj h
    have hnone : ∀ a b : Int, b < a → (∅ : Set Int) = Set.Icc a b := fun a b hlt =>
      (Set.Icc_eq_empty (not_le.mpr hlt)).symm
    refine ⟨⟨SetOfMonads.repInv_empty, SetOfMonads.mem_empty.trans (hnone _ _ (by decide))⟩,
      SetOfMonads.mem_empty.trans (hnone _ _ ?_)⟩
    rw [hempty.1, hempty.2]
    decide
  · have hle : minM ≤ maxM := by
      by_contra hlt
      rw [StartMonadInfo.add_of_gt _ (not_le.mp hlt)] at h
      cases h
    obtain ⟨s, hs, hrep, hmem⟩ := StartMonadInfo.add_spec SetOfMonads.repInv_empty hle hmin hmax
    obtain rfl := Option.some.inj (hs.symm.trans h)
    rw [SetOfMonads.mem_empty, Set.empty_union] at hmem
    refine ⟨⟨hrep, ?_⟩, hmem⟩
    rw [StartMonadInfo.first_of_isLeast hrep (hmem ▸ isLeast_Icc hle),
      StartMonadInfo.last_of_isGreatest hrep (hmem ▸ isGreatest_Icc hle)]
    exact hmem

/-! ## 2. The outermost monad sets -/

/-- `str_tolower` on bytes. -/
def strTolower (str : List UInt8) : List UInt8 :=
  str.map fun c => if 65 ≤ c ∧ c ≤ 90 then c + 32 else c

section Outermost

variable {C : Type} (e : StartMonadEnv)

/-- `Block::getOutermostSetOfMonadsFeatureSet`: what it inserts. -/
def Block.outermostSetOfMonads : Block C → List (List UInt8)
  | .gapBlock _ => []
  | .optGapBlock _ => []
  | .powerBlock _ => []
  | .objectBlock b => [strTolower (e.ourMonadSet b.info.obb)]
  | .objectBlockNOTEXIST b => [strTolower (e.ourMonadSet b.info.obb)]

mutual

/-- `getOutermostSetOfMonadsFeatureSet` of the other classes. -/
def BlockString0.outermostSetOfMonads : BlockString0 C → List (List UInt8)
  | .block b => b.outermostSetOfMonads e
  | .blockString b => b.outermostSetOfMonads

def BlockString1.outermostSetOfMonads : BlockString1 C → List (List UInt8)
  | .nonStar b => b.outermostSetOfMonads
  | .star b _ => b.outermostSetOfMonads

def BlockString2.outermostSetOfMonads : BlockString2 C → List (List UInt8)
  | .blockString1 _ b => b.outermostSetOfMonads
  | .sequence _ b rest => b.outermostSetOfMonads ++ rest.outermostSetOfMonads

def BlockString.outermostSetOfMonads : BlockString C → List (List UInt8)
  | .blockString2 b => b.outermostSetOfMonads
  | .or b rest => b.outermostSetOfMonads ++ rest.outermostSetOfMonads

end

def ObjectBlockString.outermostSetOfMonads : ObjectBlockString C → List (List UInt8)
  | .objectBlock b => [strTolower (e.ourMonadSet b.info.obb)]
  | .append bs b => bs.outermostSetOfMonads ++ [strTolower (e.ourMonadSet b.info.obb)]

def Blocks.outermostSetOfMonads : Blocks C → List (List UInt8)
  | .blockString _ b => b.outermostSetOfMonads e
  | .unorderedGroup b => b.outermostSetOfMonads e

end Outermost

/-! ## 3. `QueryBase` -/

/-- `QueryBase`: `m_in` or the arbitrary monad set that `mySymbol` has put into `m_Su`, the max
range and the topograph. -/
structure QueryBase (C : Type) where
  mIn : Option (List MQLMonadSetElement)
  mSu : SetOfMonads
  maxRange : Int
  query : Blocks C

namespace QueryBase

variable {C S σ : Type} (q : QueryBase C)

/-- The set of monads that is asked for. -/
def asked : Option SetOfMonads :=
  match q.mIn with
  | none => some q.mSu
  | some mIn => MQLMonadSetElement.monadsBuildSet mIn q.mSu

/-- `QueryBase::myMonads`: the substrate.  The sets of other monad features are left as they are. -/
def myMonads (e : StartMonadEnv) (minM maxM : Int) : Option SetOfMonads := do
  let mSu ← q.asked
  match allM1Between minM maxM with
  | none => some SetOfMonads.empty
  | some allM1 =>
    if allM1.isEmpty then some SetOfMonads.empty
    else
      match (q.query.outermostSetOfMonads e).dedup with
      | [] => some (SetOfMonads.intersect mSu allM1)
      | [somName] =>
        if strcmpNocase somName (Lexer.bytes "monads") = 0 then
          some (SetOfMonads.intersect mSu allM1)
        else some mSu
      | _ => some mSu

/-- `QueryBase::myExec` up to the sheaf. -/
def myExec (env : QueryEnv C S σ) (mSu : SetOfMonads) : Eval σ Sheaf :=
  if mSu.isEmpty then pure .fail
  else do
    let U ← ofOption (SetOfMonads.empty.add mSu.first mSu.last)
    rBlocks env q.query U mSu q.maxRange none true

variable {q}

theorem dedup_of_forall_eq {α : Type} [DecidableEq α] {a : α} : ∀ {l : List α}, (∀ x ∈ l, x = a) →
    l.dedup = [] ∨ l.dedup = [a] := by
  intro l hl
  have hmem : ∀ x ∈ l.dedup, x = a := fun x hx => hl x (List.mem_dedup.mp hx)
  have hnodup := l.nodup_dedup
  match hd : l.dedup with
  | [] => exact Or.inl rfl
  | [x] =>
    rw [hd] at hmem
    rw [hmem x List.mem_cons_self]
    exact Or.inr rfl
  | x :: y :: rest =>
    rw [hd] at hmem hnodup
    have hxy : x = y := (hmem x (by simp)).trans (hmem y (by simp)).symm
    exact absurd (hxy ▸ List.mem_cons_self) (List.nodup_cons.mp hnodup).1

/-- **The substrate of a query about `monads`** is what is asked for and in the database. -/
theorem myMonads_spec {e : StartMonadEnv} {minM maxM : Int} (hmin : 0 ≤ minM)
    (hmax : maxM ≤ maxMonad) (hall : allM1Between minM maxM = some e.allM1)
    (hnames : ∀ name ∈ q.query.outermostSetOfMonads e, name = Lexer.bytes "monads")
    {asked : SetOfMonads} (hasked : q.asked = some asked) (hrep : asked.RepInv) :
    ∃ Su, q.myMonads e minM maxM = some Su ∧ Su.RepInv ∧
      Su.mem = asked.mem ∩ Set.Icc minM maxM := by
  obtain ⟨hrange, hmem⟩ := allM1Between_spec hmin hmax hall
  unfold myMonads
  rw [hasked, Option.bind_eq_bind, Option.bind_some, hall]
  dsimp only
  by_cases hempty : e.allM1.isEmpty = true
  · rw [if_pos hempty]
    refine ⟨_, rfl, SetOfMonads.repInv_empty, ?_⟩
    rw [← hmem, SetOfMonads.mem_eq_empty.mpr (SetOfMonads.isEmpty_iff.mp hempty), Set.inter_empty]
    exact SetOfMonads.mem_empty
  · rw [if_neg hempty]
    obtain ⟨hrep', hinter⟩ := SetOfMonads.intersect_spec hrep hrange.repInv
    rw [hmem] at hinter
    rcases dedup_of_forall_eq hnames with hd | hd
    · rw [hd]
      exact ⟨_, rfl, hrep', hinter⟩
    · rw [hd]
      exact ⟨_, if_pos rfl, hrep', hinter⟩

open Classical in
/-- On a substrate in the database: a failed sheaf if it is empty, and else the meaning. -/
theorem myExec_answers {holds : C → MonadedObject → Bool} {env : QueryEnv C S σ}
    (henv : env.Compares holds) (q : QueryBase C) (e : StartMonadEnv) (hrange : e.allM1.IsRange)
    (hplain : q.query.Plain e.allM1) (hsearchable : q.query.Searchable e) {Su : SetOfMonads}
    (hrep : Su.RepInv) (hsubset : Su.mem ⊆ e.allM1.mem) (s : σ) :
    ∃ s', (q.myExec (env.withStartMonads e) Su).run s
      = some (if Su.mem = ∅ then .fail
          else q.query.sheaf holds (monadsBetween Su.first Su.last) Su q.maxRange, s') := by
  by_cases hnil : Su.monadMs = []
  · rw [if_pos (SetOfMonads.mem_eq_empty.mpr hnil), myExec,
      if_pos (SetOfMonads.isEmpty_iff.mpr hnil)]
    exact ⟨s, rfl⟩
  · obtain ⟨U, hU, -⟩ := exists_range hrep hnil
    rw [if_neg (mt SetOfMonads.mem_eq_empty.mp hnil), myExec, StartMonadInfo.isEmpty_of_ne hnil,
      if_neg Bool.false_ne_true, hU, ofOption_some, pure_bind, monadsBetween_of_add hU]
    exact rBlocks_answers henv e hrange q.query hplain hsearchable
      (isSubstrate_of_add hrep hnil hsubset rfl rfl hU) q.maxRange s

theorem phraseOfWords_plain : phraseOfWords.Plain wordMonads := by
  have hword : wordBlock.Plain wordMonads := by
    refine ⟨⟨by decide, rfl, fun o ho => ?_⟩, trivial⟩
    rcases List.mem_cons.mp ho with rfl | ho
    · exact wordAt_isIn 7 (by decide) (by decide)
    · rw [List.mem_singleton.mp ho]
      exact wordAt_isIn 8 (by decide) (by decide)
  refine ⟨rfl, ⟨by decide, rfl, fun o ho => ?_⟩, rfl, hword, hword⟩
  rw [List.mem_singleton.mp ho]
  exact ⟨wordMonads_spec.1, by decide, subset_rfl, by decide, by decide⟩

end QueryBase

end Emdros
