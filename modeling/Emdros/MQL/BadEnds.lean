/-
# Strings whose straws do not end well

Joining a straw to another one keeps the `m_last` of the one behind.  That is the last monad of
both, unless the one behind ends before the other: and so it may behind a power block, whose next
block can be tried at a monad from before the lower limit.  Besides, a placeholder for a monad
before the first one has a negative monad, while its straw has the `m_last` 0.

Whether a string of blocks makes such a straw is a question of its blocks and the data
(`EndsBadly`): at one of the monads where its parts are tried, a part is skipped before monad 1, or
a match behind a power block ends before the match in front of it.  The evaluation in which every
list is tested as it is returned does what the code does if the string does not end badly, and if
the blocks are settled exactly then (`rBlockString_endsWell_iff`).

One half goes along the program's text: where the tested evaluation and the code have done the same
so far, the list that comes next passes its test (`Below`).  The other takes an answer of the tested
evaluation apart, all of whose tests have been passed.
-/
import Emdros.MQL.StalledStars

namespace Emdros

open Partial

/-! ## 1. Evaluators that do the same where they are asked -/

section Below

variable {σ : Type} {R R' : Int → Eval σ (List Straw)} {starSOM : SetOfMonads} {Sm : Int}
  {P : Int → Int → Prop} {settled : Prop}

theorem below_tryBehind : ∀ {los : List Straw},
    (∀ straw ∈ los, Below (R (straw.last + 1)) (R' (straw.last + 1))) →
      Below (tryBehind R los) (tryBehind R' los)
  | [], _ => Below.refl _
  | straw :: los, h => by
    rw [tryBehind, tryBehind]
    refine (h straw List.mem_cons_self).bind fun los3 _ => ?_
    exact (below_tryBehind fun straw' hstraw' => h straw' (List.mem_cons_of_mem straw hstraw')).bind
      fun round _ => Below.refl _

theorem below_starLoop (hs : starSOM.IsStarSet)
    (hR : ∀ m los, Returns (R m) los → Finds (P m) settled los)
    (h : ∀ d, Tried P starSOM Sm d → Below (R (d + 1)) (R' (d + 1))) (htwo : 2 ≤ starSOM.last) :
    ∀ (fuel n : Nat) (los : List Straw) (somIt : List MonadSetElement) (resultLOS : List Straw),
      1 ≤ n → (n : Int) ≤ starSOM.last → somIt ≠ [] → somIt <:+ starSOM.monadMs →
      (∀ straw ∈ los, Repeats P Sm n straw.last) →
      Below (starLoop starSOM R fuel (n + 1 : Nat) los somIt resultLOS)
        (starLoop starSOM R' fuel (n + 1 : Nat) los somIt resultLOS) := by
  intro fuel
  induction fuel with
  | zero => exact fun _ _ _ _ _ _ _ _ _ => Below.refl _
  | succ fuel ih =>
    intro n los somIt resultLOS hone hn hne hsuffix hlos
    rw [starLoop, starLoop, starRound_eq, starRound_eq, bind_assoc, bind_assoc]
    refine (below_tryBehind fun straw hstraw =>
      h straw.last ⟨htwo, n, hone, hn, hlos straw hstraw⟩).bind fun round hround => ?_
    rw [pure_bind, pure_bind]
    dsimp only
    refine Below.ite (fun _ => ?_) fun _ => Below.refl _
    refine (Below.refl _).bind fun hint hhint => Below.ite (fun _ => Below.refl _) fun hmore => ?_
    have hkept : ∀ straw ∈ round.kept, Repeats P Sm (n + 1) straw.last := by
      intro straw hstraw
      obtain ⟨behind, hbehind, hmem⟩ := List.mem_flatMap.mp hstraw
      obtain ⟨found, hfound, rfl⟩ := mem_keptBehind.mp hmem
      obtain ⟨hin, hreturns⟩ := (returns_tryBehind hround).1 behind hbehind
      exact .succ (hlos behind.1 hin) ((hR _ _ hreturns).sound found hfound).2
    rcases lt_or_ge (n : Int) starSOM.last with hlt | hge
    · obtain ⟨somIt', hmember, hne', hsuffix'⟩ :=
        hs.isMemberOfHint_le (m := (n + 1 : Nat)) hne hsuffix (by omega)
      cases hmember.symm.trans hhint.of_ofOption
      exact ih (n + 1) round.kept somIt' _ (by omega) (by omega) hne' hsuffix' hkept
    · -- the iterator has gone past the end
      have hend := hhint.of_ofOption
      rw [SetOfMonads.isMemberOfHint_gt (by omega)] at hend
      cases hend
      exact absurd rfl hmore

/-- A star asks at the monad where it is tried and behind its repetitions. -/
theorem below_rStar (hs : starSOM.IsStarSet)
    (hR : ∀ m los, Returns (R m) los → Finds (P m) settled los) (hfirst : Below (R Sm) (R' Sm))
    (h : ∀ d, Tried P starSOM Sm d → Below (R (d + 1)) (R' (d + 1))) :
    Below (rStar starSOM Sm R) (rStar starSOM Sm R') := by
  rw [rStar, rStar]
  refine hfirst.bind fun los hlos => Below.ite (fun _ => Below.refl _) fun _ => ?_
  refine (Below.refl _).bind fun hint hhint => (Below.refl _).bind fun hint' hhint' => ?_
  refine Below.ite (fun htwo => ?_) fun _ => Below.refl _
  obtain ⟨somIt, hmember, hne, hsuffix⟩ :=
    hs.isMemberOfHint_le (m := 0) hs.ne_nil (List.suffix_refl _) hs.last_nonneg
  cases hmember.symm.trans hhint.of_ofOption
  obtain ⟨somIt', hmember', hne', hsuffix'⟩ :=
    hs.isMemberOfHint_le (m := 1) hne hsuffix (by omega)
  cases hmember'.symm.trans hhint'.of_ofOption
  refine below_starLoop hs hR h htwo _ 1 los somIt' _ le_rfl (by omega) hne' hsuffix'
    fun straw hstraw => .succ .zero ?_
  rw [sub_add_cancel]
  exact ((hR Sm los hlos).sound straw hstraw).2

end Below

section Chains

variable {C S σ : Type} {env : QueryEnv C S σ} {e : StartMonadEnv} {U Su : SetOfMonads}
  {maxRange : Int} {node : Nat} {x x' : Eval σ (List Straw)}
  {next next' : Int → Eval σ (List Straw)}

theorem below_nonPower (hx : Below x x') (hnext : ∀ los, Returns x los → ∀ front ∈ los,
    Below (next (front.last + 1)) (next' (front.last + 1))) :
    Below (nonPowerChain env node x prependToAll next)
      (nonPowerChain env node x' prependToAll next') := by
  rw [nonPowerChain, nonPowerChain]
  refine hx.bind fun los hlos => Below.collect fun front hfront => ?_
  refine (Below.refl _).bind fun _ _ => ?_
  exact (hnext los hlos front hfront).bind fun _ _ => Below.refl _

theorem below_power {power : Power} {b : BlockString2 C} (hstarts : env.StartsBy e)
    (hx : Below x x') (hnext : ∀ los, Returns x los → ∀ front ∈ los, ∀ s,
      b.StartsBehind e U Su maxRange power front.last s → Below (next s) (next' s)) :
    Below (powerChain env U Su maxRange node power x
        (fun Sm => env.getSMIBlockString1 b.getBlockString1 U Su Sm) prependToAll next)
      (powerChain env U Su maxRange node power x'
        (fun Sm => env.getSMIBlockString1 b.getBlockString1 U Su Sm) prependToAll next') := by
  rw [powerChain, powerChain]
  refine hx.bind fun los hlos => Below.collect fun front hfront => ?_
  refine (Below.refl _).bind fun _ _ => Below.ite (fun hrest => ?_) fun _ => Below.refl _
  refine (Below.refl _).bind fun monads hmonads => Below.collect fun s hs => ?_
  rw [hstarts.blockString1] at hmonads
  obtain ⟨smi, hsmi, rfl⟩ := Option.map_eq_some_iff.mp hmonads.of_ofOption
  exact (hnext los hlos front hfront s ⟨leaves_iff.mp hrest, smi, hsmi, hs⟩).bind
    fun _ _ => Below.refl _

theorem below_orJoin {y y' : Eval σ (List Straw)} (hx : Below x x') (hy : Below y y') :
    Below (orJoin x y) (orJoin x' y') := by
  rw [orJoin, orJoin]
  exact hx.bind fun _ _ => hy.bind fun _ _ => Below.refl _

end Chains

/-! ## 2. Strings that end badly -/

section EndsBadly

variable {C S σ : Type} (env : QueryEnv C S σ)
  (rGroup : ObjectBlockString C → Option (MQLResultCallback σ) → Bool →
    List (List Straw) → Eval σ Sheaf)
  (e : StartMonadEnv) (U Su : SetOfMonads) (maxRange : Int)

mutual

/-- Some straw that is made when the string is tried at the monad does not end well. -/
def BlockString0.EndsBadly : BlockString0 C → Int → Prop
  | .block b, m => m < 1 ∧ b.EmptyAt env rGroup e U Su m
  | .blockString b, m => b.EndsBadly m

def BlockString1.EndsBadly : BlockString1 C → Int → Prop
  | .nonStar b, m => b.EndsBadly m
  | .star b starSOM, m => m < 1 ∧ 0 ∈ starSOM.mem ∨ b.EndsBadly m ∨
    ∃ d, Tried (fun m last => b.Spans env rGroup e U Su maxRange m last) starSOM m d ∧
      b.EndsBadly (d + 1)

def BlockString2.EndsBadly : BlockString2 C → Int → Prop
  | .blockString1 _ b, m => b.EndsBadly m
  | .sequence _ b (.blockString1 node next), m => b.EndsBadly m ∨
    ∃ d, b.Spans env rGroup e U Su maxRange m d ∧
      next.getPowerBlock = none ∧ (BlockString2.blockString1 node next).EndsBadly (d + 1)
  | .sequence _ b (.sequence node next nextButOne), m => b.EndsBadly m ∨
    ∃ d, b.Spans env rGroup e U Su maxRange m d ∧
      match next.getPowerBlock with
      | some power => ∃ s, nextButOne.StartsBehind e U Su maxRange power d s ∧
          (nextButOne.EndsBadly s ∨
            ∃ last, nextButOne.Spans env rGroup e U Su maxRange s last ∧ last < d)
      | none => (BlockString2.sequence node next nextButOne).EndsBadly (d + 1)

def BlockString.EndsBadly : BlockString C → Int → Prop
  | .blockString2 b, m => b.EndsBadly m
  | .or b rest, m => b.EndsBadly m ∨ rest.EndsBadly m

end

variable {env rGroup e U Su maxRange}

/-! ## 3. Lists that pass their tests -/

/-- What was returned and has passed its test. -/
theorem returns_asserting {Sm : Int} {x : Eval σ (List Straw)} {los : List Straw}
    (h : Returns (x >>= asserting Sm) los) : Returns x los ∧ AllEndWell Sm los := by
  obtain ⟨los', hx, h⟩ := h.of_bind
  rcases Returns.of_ite h with ⟨hends, h⟩ | ⟨-, h⟩
  · cases h.of_pure
    exact ⟨hx, hends⟩
  · exact h.not_failure.elim

theorem below_asserting {Sm : Int} {x x' : Eval σ (List Straw)} (h : Below x x')
    (hends : ∀ los, Returns x los → AllEndWell Sm los) : Below x (x' >>= asserting Sm) :=
  h.of_guardAll hends

/-- A test that is taken out. -/
theorem below_untested {Sm : Int} {x x' : Eval σ (List Straw)} (h : Below x x') :
    Below (x >>= asserting Sm) x' := by
  refine Below.trans (h.bind fun los _ => Below.guardAll los) ?_
  exact Below.of_eq (bind_pure x')

mutual

/-- Whatever the tested evaluation returns ends well. -/
theorem returns_hooked0 : ∀ {b : BlockString0 C} {m : Int} {los : List Straw},
    Returns (hookedBlockString0 env rGroup U Su maxRange asserting b m) los → AllEndWell m los
  | .block b, m, los, h => by
    rw [hookedBlockString0] at h
    exact (returns_asserting h).2
  | .blockString b, m, los, h => by
    rw [hookedBlockString0] at h
    exact returns_hooked h

theorem returns_hooked1 : ∀ {b : BlockString1 C} {m : Int} {los : List Straw},
    Returns (hookedBlockString1 env rGroup U Su maxRange asserting b m) los → AllEndWell m los
  | .nonStar b, m, los, h => by
    rw [hookedBlockString1] at h
    exact returns_hooked0 h
  | .star b starSOM, m, los, h => by
    rw [hookedBlockString1] at h
    exact (returns_asserting h).2

theorem returns_hooked2 : ∀ {b : BlockString2 C} {m : Int} {los : List Straw},
    Returns (hookedBlockString2 env rGroup U Su maxRange asserting b m) los → AllEndWell m los
  | .blockString1 _ b, m, los, h => by
    rw [hookedBlockString2] at h
    exact returns_hooked1 h
  | .sequence _ b (.blockString1 _ next), m, los, h => by
    rw [hookedBlockString2] at h
    cases hpower : next.getPowerBlock with
    | some power =>
      rw [hpower] at h
      exact (returns_asserting h).2
    | none =>
      rw [hpower] at h
      exact (returns_asserting h).2
  | .sequence _ b (.sequence _ next nextButOne), m, los, h => by
    rw [hookedBlockString2] at h
    cases hpower : next.getPowerBlock with
    | some power =>
      rw [hpower] at h
      exact (returns_asserting h).2
    | none =>
      rw [hpower] at h
      exact (returns_asserting h).2

theorem returns_hooked : ∀ {b : BlockString C} {m : Int} {los : List Straw},
    Returns (hookedBlockString env rGroup U Su maxRange asserting b m) los → AllEndWell m los
  | .blockString2 b, m, los, h => by
    rw [hookedBlockString] at h
    exact returns_hooked2 h
  | .or b rest, m, los, h => by
    rw [hookedBlockString] at h
    exact (returns_asserting h).2

end

/-- What an evaluator of tested lists finds, of which nothing else is known. -/
theorem finds_something {R : Int → Eval σ (List Straw)}
    (hR : ∀ m los, Returns (R m) los → AllEndWell m los) (m : Int) (los : List Straw)
    (h : Returns (R m) los) : Finds (fun _ => True) False los :=
  ⟨fun straw hstraw => ⟨(hR m los h straw hstraw).isEmpty, trivial⟩, False.elim⟩

mutual

/-- The tests only fail. -/
theorem hooked_below0 (hstarts : env.StartsBy e) : ∀ b : BlockString0 C, b.StarSets → ∀ m,
    Below (hookedBlockString0 env rGroup U Su maxRange asserting b m)
      (Evaluator.rBlockString0 env rGroup b U Su m maxRange)
  | .block b, _, m => by
    rw [hookedBlockString0, Evaluator.rBlockString0]
    exact below_untested (Below.refl _)
  | .blockString b, hb, m => by
    rw [hookedBlockString0, Evaluator.rBlockString0]
    exact hooked_below hstarts b hb m

theorem hooked_below1 (hstarts : env.StartsBy e) : ∀ b : BlockString1 C, b.StarSets → ∀ m,
    Below (hookedBlockString1 env rGroup U Su maxRange asserting b m)
      (Evaluator.rBlockString1 env rGroup b U Su m maxRange)
  | .nonStar b, hb, m => by
    rw [hookedBlockString1, Evaluator.rBlockString1]
    exact hooked_below0 hstarts b hb m
  | .star b starSOM, hb, m => by
    have hR := hooked_below0 hstarts b hb.2
    rw [hookedBlockString1, Evaluator.rBlockString1]
    exact below_untested (below_rStar (P := fun _ _ => True) hb.1
      (finds_something fun _ _ => returns_hooked0) (hR m) fun d _ => hR (d + 1))

theorem hooked_below2 (hstarts : env.StartsBy e) : ∀ b : BlockString2 C, b.StarSets → ∀ m,
    Below (hookedBlockString2 env rGroup U Su maxRange asserting b m)
      (Evaluator.rBlockString2 env rGroup b U Su m maxRange)
  | .blockString1 _ b, hb, m => by
    rw [hookedBlockString2, Evaluator.rBlockString2]
    exact hooked_below1 hstarts b hb m
  | .sequence node b (.blockString1 node' next), hb, m => by
    have hfirst := hooked_below1 hstarts b hb.1 m
    have hrest := hooked_below2 hstarts (.blockString1 node' next) hb.2
    rw [hookedBlockString2, Evaluator.rBlockString2]
    cases next.getPowerBlock with
    | some power =>
      dsimp only
      rw [← powerChain_eq]
      refine below_untested ?_
      rw [powerChain, powerChain]
      exact hfirst.bind fun los _ => Below.refl _
    | none =>
      dsimp only
      rw [← nonPowerChain_eq]
      exact below_untested (below_nonPower hfirst fun _ _ front _ => hrest _)
  | .sequence node b (.sequence node' next nextButOne), hb, m => by
    have hfirst := hooked_below1 hstarts b hb.1 m
    have hrest := hooked_below2 hstarts (.sequence node' next nextButOne) hb.2
    have hbutOne := hooked_below2 hstarts nextButOne hb.2.2
    rw [hookedBlockString2, Evaluator.rBlockString2]
    cases next.getPowerBlock with
    | some power =>
      dsimp only
      rw [← powerChain_eq]
      exact below_untested (below_power hstarts hfirst fun _ _ _ _ s _ => hbutOne s)
    | none =>
      dsimp only
      rw [← nonPowerChain_eq]
      exact below_untested (below_nonPower hfirst fun _ _ front _ => hrest _)

theorem hooked_below (hstarts : env.StartsBy e) : ∀ b : BlockString C, b.StarSets → ∀ m,
    Below (hookedBlockString env rGroup U Su maxRange asserting b m)
      (Evaluator.rBlockString env rGroup b U Su m maxRange)
  | .blockString2 b, hb, m => by
    rw [hookedBlockString, Evaluator.rBlockString]
    exact hooked_below2 hstarts b hb m
  | .or b rest, hb, m => by
    rw [hookedBlockString, Evaluator.rBlockString]
    exact below_untested (below_orJoin (hooked_below2 hstarts b hb.1 m)
      (hooked_below hstarts rest hb.2 m))

end

/-! ## 4. Blocks -/

theorem Block.EmptyAt.spans {m : Int} : ∀ {b : Block C}, b.EmptyAt env rGroup e U Su m →
    b.Spans env rGroup e U Su m (Straw.skipped m).last
  | .optGapBlock _, h => Or.inr ⟨h, rfl⟩
  | .objectBlockNOTEXIST _, h => ⟨h, rfl⟩

/-- A block is skipped, or its straws end well. -/
theorem skipped_or_endsWell (hstarts : env.StartsBy e) {m : Int} :
    ∀ {b : Block C}, b.InstSound → ∀ {los : List Straw},
      Returns (Evaluator.rBlock env rGroup b U Su m) los →
        los = [Straw.skipped m] ∧ b.EmptyAt env rGroup e U Su m ∨
          AllEndWell m los ∧ (b.Settled env rGroup → ¬ b.EmptyAt env rGroup e U Su m)
  | .gapBlock (.mk retrieval obb optBlocks), _, los, h => by
    rw [Evaluator.rBlock, Evaluator.rGapBlock] at h
    obtain ⟨pMO, hpMO, rfl⟩ := h.of_bind_pure
    rcases hpMO.ensured (endsWell_rGap retrieval obb _ _ false) with ⟨hends, -⟩ | ⟨-, hempty, -⟩
    · exact Or.inr ⟨hends, fun _ => id⟩
    · cases hempty
  | .optGapBlock (.mk retrieval obb optBlocks), _, los, h => by
    rw [Evaluator.rBlock, Evaluator.rGapBlock] at h
    obtain ⟨pMO, hpMO, rfl⟩ := h.of_bind_pure
    rcases hpMO.ensured (endsWell_rGap retrieval obb _ _ true) with ⟨hends, hgap⟩ | ⟨hlos, -, hgap⟩
    · exact Or.inr ⟨hends, fun _ hempty => hgap ⟨rfl, hempty⟩⟩
    · exact Or.inl ⟨hlos, hgap⟩
  | .powerBlock _, _, los, h => by
    rw [Evaluator.rBlock] at h
    exact h.not_failure.elim
  | .objectBlock (.mk info optBlocks), hb, los, h => by
    have hinst : ∀ o ∈ info.inst, 1 ≤ o.first ∧ o.first ≤ o.monads.last := fun o ho => by
      obtain ⟨hrep, hne, hfirst, hone⟩ := hb o ho
      exact ⟨hone, hfirst ▸ hrep.first_le_last hne⟩
    rw [Evaluator.rBlock, Evaluator.rObjectBlock] at h
    exact Or.inr ⟨h.ensured (endsWell_rObjectBlockInst hinst _ _), fun _ => id⟩
  | .objectBlockNOTEXIST (.mk info optBlocks), _, los, h => by
    have hfinds := finds_rNOTEXIST hstarts h
    rw [Evaluator.rBlock] at h
    rcases h.ensured (skipped_rNOTEXIST _ _ _) with rfl | rfl
    · refine Or.inr ⟨fun _ hmem => absurd hmem List.not_mem_nil, fun hsettled hempty => ?_⟩
      obtain ⟨straw, hstraw, -⟩ := hfinds.complete hsettled _ hempty.spans
      cases hstraw
    · exact Or.inl ⟨rfl, (hfinds.sound _ (List.mem_singleton_self _)).2.1⟩

/-! ## 5. Strings that do not end badly -/

theorem AllEndWell.prependToAll {m s : Int} {front : Straw} {los : List Straw}
    (hfront : front.EndsWell m) (hlos : AllEndWell s los)
    (hle : ∀ straw ∈ los, front.last ≤ straw.last) :
    AllEndWell m (Emdros.prependToAll front los) := by
  intro straw hstraw
  obtain ⟨behind, hbehind, -, rfl⟩ := mem_prependToAll.mp hstraw
  exact (Straw.endsWell_prepend_iff hfront (hlos behind hbehind)).mpr (hle behind hbehind)

section Sequences

variable {node : Nat} {m : Int} {x : Eval σ (List Straw)} {next : Int → Eval σ (List Straw)}

/-- Right behind a straw, nothing ends before it. -/
theorem endsWell_nonPower (hx : ∀ los, Returns x los → AllEndWell m los)
    (hnext : ∀ fronts, Returns x fronts → ∀ front ∈ fronts, ∀ los,
      Returns (next (front.last + 1)) los → AllEndWell (front.last + 1) los) {los : List Straw}
    (h : Returns (nonPowerChain env node x prependToAll next) los) : AllEndWell m los := by
  obtain ⟨fronts, hfronts, hof, -⟩ := returns_nonPowerChain h
  intro straw hstraw
  obtain ⟨front, hfront, behind, hbehind, hmem⟩ := hof straw hstraw
  have hends := hnext fronts hfronts front hfront behind hbehind
  refine hends.prependToAll (hx fronts hfronts front hfront) (fun straw' hstraw' => ?_) straw hmem
  have := (hends straw' hstraw').sub_one_le
  omega

/-- Behind a power block, what is found must not end before the straw in front. -/
theorem endsWell_power {power : Power} {b : BlockString2 C} (hstarts : env.StartsBy e)
    (hx : ∀ los, Returns x los → AllEndWell m los)
    (hnext : ∀ fronts, Returns x fronts → ∀ front ∈ fronts, ∀ s,
      b.StartsBehind e U Su maxRange power front.last s → ∀ los, Returns (next s) los →
        AllEndWell s los ∧ ∀ straw ∈ los, front.last ≤ straw.last) {los : List Straw}
    (h : Returns (powerChain env U Su maxRange node power x
      (fun Sm => env.getSMIBlockString1 b.getBlockString1 U Su Sm) prependToAll next) los) :
    AllEndWell m los := by
  obtain ⟨fronts, hfronts, hof, -⟩ := returns_powerChain hstarts h
  intro straw hstraw
  obtain ⟨front, hfront, s, hs, behind, hbehind, hmem⟩ := hof straw hstraw
  obtain ⟨hends, hle⟩ := hnext fronts hfronts front hfront s hs behind hbehind
  exact hends.prependToAll (hx fronts hfronts front hfront) hle straw hmem

end Sequences

mutual

/-- The tested evaluation does what the code does. -/
theorem below_hooked0 (hstarts : env.StartsBy e) : ∀ b : BlockString0 C, b.StarSets →
    b.AllBlocks Block.InstSound → ∀ m, ¬ b.EndsBadly env rGroup e U Su maxRange m →
      Below (Evaluator.rBlockString0 env rGroup b U Su m maxRange)
        (hookedBlockString0 env rGroup U Su maxRange asserting b m)
  | .block b, _, hinst, m, hends => by
    rw [hookedBlockString0, Evaluator.rBlockString0]
    refine below_asserting (Below.refl _) fun los hlos => ?_
    rcases skipped_or_endsWell hstarts hinst hlos with ⟨rfl, hempty⟩ | ⟨hwell, -⟩
    · refine List.forall_mem_singleton.mpr (Straw.skipped_endsWell_iff.mpr ?_)
      by_contra hlt
      exact hends ⟨not_le.mp hlt, hempty⟩
    · exact hwell
  | .blockString b, hstars, hinst, m, hends => by
    rw [hookedBlockString0, Evaluator.rBlockString0]
    exact below_hooked hstarts b hstars hinst m hends

theorem below_hooked1 (hstarts : env.StartsBy e) : ∀ b : BlockString1 C, b.StarSets →
    b.AllBlocks Block.InstSound → ∀ m, ¬ b.EndsBadly env rGroup e U Su maxRange m →
      Below (Evaluator.rBlockString1 env rGroup b U Su m maxRange)
        (hookedBlockString1 env rGroup U Su maxRange asserting b m)
  | .nonStar b, hstars, hinst, m, hends => by
    rw [hookedBlockString1, Evaluator.rBlockString1]
    exact below_hooked0 hstarts b hstars hinst m hends
  | .star b starSOM, hstars, hinst, m, hends => by
    rw [BlockString1.EndsBadly] at hends
    obtain ⟨hzero, hfirst, htried⟩ := (not_or.trans (and_congr_right' not_or)).mp hends
    have hbelow := below_rStar hstars.1 (finds_rBlockString0 hstarts b hstars.2)
      (below_hooked0 hstarts b hstars.2 hinst m hfirst) fun d hd =>
        below_hooked0 hstarts b hstars.2 hinst (d + 1) fun hbad => htried ⟨d, hd, hbad⟩
    rw [hookedBlockString1, Evaluator.rBlockString1]
    refine below_asserting hbelow fun los hlos => ?_
    -- what the tested star returns is made of straws that end well
    have hmember : starSOM.isMemberOf 0 = true ↔ 0 ∈ starSOM.mem :=
      SetOfMonads.isMemberOfLoop_iff hstars.1.sep
    obtain ⟨somIt, hhint, -, -⟩ := hstars.1.isMemberOfHint_le (m := 0) hstars.1.ne_nil
      (List.suffix_refl _) hstars.1.last_nonneg
    refine (hbelow.returns hlos).ensured (Straw.EndsWell.composes.ensures_rStar id starSOM
      (fun hskips => ?_) fun _ => (Ensures.returns _).mono fun _ => returns_hooked0)
    · have hin : 0 ∈ starSOM.mem := by
        rcases hskips with hskips | ⟨r, hr⟩
        · exact hmember.mp hskips
        · exact of_decide_eq_true (Prod.mk.inj (Option.some.inj (hhint.symm.trans hr))).1
      refine Straw.skipped_endsWell_iff.mpr ?_
      by_contra hlt
      exact hzero ⟨not_le.mp hlt, hin⟩

theorem below_hooked2 (hstarts : env.StartsBy e) : ∀ b : BlockString2 C, b.StarSets →
    b.AllBlocks Block.InstSound → ∀ m, ¬ b.EndsBadly env rGroup e U Su maxRange m →
      Below (Evaluator.rBlockString2 env rGroup b U Su m maxRange)
        (hookedBlockString2 env rGroup U Su maxRange asserting b m)
  | .blockString1 _ b, hstars, hinst, m, hends => by
    rw [hookedBlockString2, Evaluator.rBlockString2]
    exact below_hooked1 hstarts b hstars hinst m hends
  | .sequence node b (.blockString1 node' next), hstars, hinst, m, hends => by
    rw [BlockString2.EndsBadly] at hends
    obtain ⟨hfirst, hrest⟩ := not_or.mp hends
    have hbelow := below_hooked1 hstarts b hstars.1 hinst.1 m hfirst
    have hfinds := @finds_rBlockString1 C S σ env rGroup e U Su maxRange hstarts b hstars.1 m
    rw [hookedBlockString2, Evaluator.rBlockString2]
    cases hpower : next.getPowerBlock with
    | some power =>
      dsimp only
      rw [← powerChain_eq]
      refine below_asserting ?_ fun los hlos => ?_
      · rw [powerChain, powerChain]
        exact hbelow.bind fun los _ => Below.refl _
      · rw [finds_nothing hlos]
        exact fun _ hmem => absurd hmem List.not_mem_nil
    | none =>
      have hnext : ∀ fronts, Returns (Evaluator.rBlockString1 env rGroup b U Su m maxRange) fronts →
          ∀ front ∈ fronts, Below
            (Evaluator.rBlockString2 env rGroup (.blockString1 node' next) U Su (front.last + 1)
              maxRange)
            (hookedBlockString2 env rGroup U Su maxRange asserting (.blockString1 node' next)
              (front.last + 1)) := fun fronts hfronts front hfront =>
        below_hooked2 hstarts (.blockString1 node' next) hstars.2 hinst.2 (front.last + 1)
          fun hbad => hrest
            ⟨front.last, ((hfinds fronts hfronts).sound front hfront).2, hpower, hbad⟩
      dsimp only
      rw [← nonPowerChain_eq]
      exact below_asserting (below_nonPower hbelow hnext) fun los hlos =>
        endsWell_nonPower (fun _ h => returns_hooked1 (hbelow.returns h))
          (fun fronts hfronts front hfront _ h =>
            returns_hooked2 ((hnext fronts hfronts front hfront).returns h)) hlos
  | .sequence node b (.sequence node' next nextButOne), hstars, hinst, m, hends => by
    rw [BlockString2.EndsBadly] at hends
    obtain ⟨hfirst, hrest⟩ := not_or.mp hends
    have hbelow := below_hooked1 hstarts b hstars.1 hinst.1 m hfirst
    have hfinds := @finds_rBlockString1 C S σ env rGroup e U Su maxRange hstarts b hstars.1 m
    rw [hookedBlockString2, Evaluator.rBlockString2]
    cases hpower : next.getPowerBlock with
    | some power =>
      rw [hpower] at hrest
      have hnext : ∀ fronts, Returns (Evaluator.rBlockString1 env rGroup b U Su m maxRange) fronts →
          ∀ front ∈ fronts, ∀ s, nextButOne.StartsBehind e U Su maxRange power front.last s →
            Below (Evaluator.rBlockString2 env rGroup nextButOne U Su s maxRange)
              (hookedBlockString2 env rGroup U Su maxRange asserting nextButOne s) :=
        fun fronts hfronts front hfront s hs =>
          below_hooked2 hstarts nextButOne hstars.2.2 hinst.2.2 s fun hbad =>
            hrest ⟨front.last, ((hfinds fronts hfronts).sound front hfront).2, s, hs, Or.inl hbad⟩
      dsimp only
      rw [← powerChain_eq]
      refine below_asserting (below_power hstarts hbelow hnext) fun los hlos =>
        endsWell_power hstarts (fun _ h => returns_hooked1 (hbelow.returns h))
          (fun fronts hfronts front hfront s hs behind hbehind => ?_) hlos
      refine ⟨returns_hooked2 ((hnext fronts hfronts front hfront s hs).returns hbehind), ?_⟩
      intro straw hstraw
      by_contra hlt
      exact hrest ⟨front.last, ((hfinds fronts hfronts).sound front hfront).2, s, hs, Or.inr
        ⟨straw.last, ((finds_rBlockString2 hstarts nextButOne hstars.2.2 s _ hbehind).sound straw
          hstraw).2, not_le.mp hlt⟩⟩
    | none =>
      rw [hpower] at hrest
      have hnext : ∀ fronts, Returns (Evaluator.rBlockString1 env rGroup b U Su m maxRange) fronts →
          ∀ front ∈ fronts, Below
            (Evaluator.rBlockString2 env rGroup (.sequence node' next nextButOne) U Su
              (front.last + 1) maxRange)
            (hookedBlockString2 env rGroup U Su maxRange asserting
              (.sequence node' next nextButOne) (front.last + 1)) :=
        fun fronts hfronts front hfront =>
          below_hooked2 hstarts (.sequence node' next nextButOne) hstars.2 hinst.2 (front.last + 1)
            fun hbad => hrest ⟨front.last, ((hfinds fronts hfronts).sound front hfront).2, hbad⟩
      dsimp only
      rw [← nonPowerChain_eq]
      exact below_asserting (below_nonPower hbelow hnext) fun los hlos =>
        endsWell_nonPower (fun _ h => returns_hooked1 (hbelow.returns h))
          (fun fronts hfronts front hfront _ h =>
            returns_hooked2 ((hnext fronts hfronts front hfront).returns h)) hlos

theorem below_hooked (hstarts : env.StartsBy e) : ∀ b : BlockString C, b.StarSets →
    b.AllBlocks Block.InstSound → ∀ m, ¬ b.EndsBadly env rGroup e U Su maxRange m →
      Below (Evaluator.rBlockString env rGroup b U Su m maxRange)
        (hookedBlockString env rGroup U Su maxRange asserting b m)
  | .blockString2 b, hstars, hinst, m, hends => by
    rw [hookedBlockString, Evaluator.rBlockString]
    exact below_hooked2 hstarts b hstars hinst m hends
  | .or b rest, hstars, hinst, m, hends => by
    rw [BlockString.EndsBadly] at hends
    obtain ⟨hfirst, hrest⟩ := not_or.mp hends
    have hbelow := below_hooked2 hstarts b hstars.1 hinst.1 m hfirst
    have hbelow' := below_hooked hstarts rest hstars.2 hinst.2 m hrest
    rw [hookedBlockString, Evaluator.rBlockString]
    refine below_asserting (below_orJoin hbelow hbelow') fun los hlos => ?_
    obtain ⟨los₁, los₂, h₁, h₂, rfl⟩ := returns_orJoin hlos
    exact List.forall_mem_append.mpr ⟨returns_hooked2 (hbelow.returns h₁),
      returns_hooked (hbelow'.returns h₂)⟩

end

/-! ## 6. Strings that end badly are found out -/

mutual

/-- If all tests of the evaluation have been passed, the string does not end badly. -/
theorem not_endsBadly0 (hstarts : env.StartsBy e) : ∀ b : BlockString0 C, b.StarSets →
    b.AllBlocks Block.InstSound → b.AllBlocks (Block.Settled env rGroup) → ∀ m los,
      Returns (hookedBlockString0 env rGroup U Su maxRange asserting b m) los →
        ¬ b.EndsBadly env rGroup e U Su maxRange m
  | .block b, _, hinst, hsettled, m, los, h => by
    rw [hookedBlockString0] at h
    obtain ⟨hlos, hends⟩ := returns_asserting h
    rintro ⟨hlt, hempty⟩
    rcases skipped_or_endsWell hstarts hinst hlos with ⟨rfl, -⟩ | ⟨-, hnot⟩
    · have := Straw.skipped_endsWell_iff.mp (hends _ (List.mem_singleton_self _))
      omega
    · exact hnot hsettled hempty
  | .blockString b, hstars, hinst, hsettled, m, los, h => by
    rw [hookedBlockString0] at h
    exact not_endsBadly hstarts b hstars hinst hsettled m los h

theorem not_endsBadly1 (hstarts : env.StartsBy e) : ∀ b : BlockString1 C, b.StarSets →
    b.AllBlocks Block.InstSound → b.AllBlocks (Block.Settled env rGroup) → ∀ m los,
      Returns (hookedBlockString1 env rGroup U Su maxRange asserting b m) los →
        ¬ b.EndsBadly env rGroup e U Su maxRange m
  | .nonStar b, hstars, hinst, hsettled, m, los, h => by
    rw [hookedBlockString1] at h
    exact not_endsBadly0 hstarts b hstars hinst hsettled m los h
  | .star b starSOM, hstars, hinst, hsettled, m, los, h => by
    rw [hookedBlockString1] at h
    obtain ⟨hlos, hends⟩ := returns_asserting h
    have htested := not_endsBadly0 hstarts b hstars.2 hinst hsettled
    rw [BlockString1.EndsBadly]
    rintro (⟨hlt, hzero⟩ | hbad | ⟨d, ⟨htwo, n, hone, hn, hrepeats⟩, hbad⟩)
    · obtain ⟨level, -, -, rfl, -⟩ := hlos.ensured (rStar_denotes hstars.1)
      have := Straw.skipped_endsWell_iff.mp
        (hends _ (List.mem_append_left _ (by rw [if_pos hzero]; exact List.mem_singleton_self _)))
      omega
    · rw [rStar] at hlos
      obtain ⟨fronts, hfronts, -⟩ := hlos.of_bind
      exact htested m fronts hfronts hbad
    · -- behind that repetition the string has been tried
      rw [← rStarRounds_fst] at hlos
      obtain ⟨r, hr, -⟩ := hlos.of_bind_pure
      have hR : ∀ m los, Returns (hookedBlockString0 env rGroup U Su maxRange asserting b m) los →
          Finds (b.Spans env rGroup e U Su maxRange m) (b.AllBlocks (Block.Settled env rGroup))
            los := fun m los h =>
        finds_rBlockString0 hstarts b hstars.2 m los
          ((hooked_below0 hstarts b hstars.2 m).returns h)
      have hrecorded := (recorded_rStarRounds hstars.1 hR hr).2 htwo
      obtain ⟨i, rfl⟩ := Nat.exists_eq_add_of_le hone
      obtain ⟨round, hget, behind, hbehind, rfl⟩ := hrecorded.complete hsettled i d hn hrepeats
      obtain ⟨-, -, hof⟩ := hrecorded.sound i round hget
      exact htested _ _ (hof behind hbehind).2 hbad

theorem not_endsBadly2 (hstarts : env.StartsBy e) : ∀ b : BlockString2 C, b.StarSets →
    b.AllBlocks Block.InstSound → b.AllBlocks (Block.Settled env rGroup) → ∀ m los,
      Returns (hookedBlockString2 env rGroup U Su maxRange asserting b m) los →
        ¬ b.EndsBadly env rGroup e U Su maxRange m
  | .blockString1 _ b, hstars, hinst, hsettled, m, los, h => by
    rw [hookedBlockString2] at h
    exact not_endsBadly1 hstarts b hstars hinst hsettled m los h
  | .sequence node b (.blockString1 node' next), hstars, hinst, hsettled, m, los, h => by
    have hfirst := not_endsBadly1 hstarts b hstars.1 hinst.1 hsettled.1 m
    have hrest := not_endsBadly2 hstarts (.blockString1 node' next) hstars.2 hinst.2 hsettled.2
    have hbelow := @hooked_below1 C S σ env rGroup e U Su maxRange hstarts b hstars.1 m
    have hfinds := @finds_rBlockString1 C S σ env rGroup e U Su maxRange hstarts b hstars.1 m
    rw [hookedBlockString2] at h
    cases hpower : next.getPowerBlock with
    | some power =>
      rw [hpower] at h
      obtain ⟨hlos, -⟩ := returns_asserting h
      rw [powerChain] at hlos
      obtain ⟨fronts, hfronts, -⟩ := hlos.of_bind
      rw [BlockString2.EndsBadly, hpower]
      rintro (hbad | ⟨d, -, hnone, -⟩)
      · exact hfirst fronts hfronts hbad
      · cases hnone
    | none =>
      rw [hpower] at h
      obtain ⟨fronts, hfronts, -, hall⟩ := returns_nonPowerChain (returns_asserting h).1
      rw [BlockString2.EndsBadly]
      rintro (hbad | ⟨d, hd, -, hbad⟩)
      · exact hfirst fronts hfronts hbad
      · obtain ⟨front, hfront, rfl⟩ :=
          (hfinds fronts (hbelow.returns hfronts)).complete hsettled.1 d hd
        obtain ⟨behind, hbehind, -⟩ := hall front hfront
        exact hrest _ behind hbehind hbad
  | .sequence node b (.sequence node' next nextButOne), hstars, hinst, hsettled, m, los, h => by
    have hfirst := not_endsBadly1 hstarts b hstars.1 hinst.1 hsettled.1 m
    have hrest := not_endsBadly2 hstarts (.sequence node' next nextButOne) hstars.2 hinst.2
      hsettled.2
    have hbutOne := not_endsBadly2 hstarts nextButOne hstars.2.2 hinst.2.2 hsettled.2.2
    have hbelow := @hooked_below1 C S σ env rGroup e U Su maxRange hstarts b hstars.1 m
    have hfinds := @finds_rBlockString1 C S σ env rGroup e U Su maxRange hstarts b hstars.1 m
    rw [hookedBlockString2] at h
    cases hpower : next.getPowerBlock with
    | some power =>
      rw [hpower] at h
      obtain ⟨hlos, hends⟩ := returns_asserting h
      obtain ⟨fronts, hfronts, -, hall⟩ := returns_powerChain hstarts hlos
      have hfrontsEnd := returns_hooked1 hfronts
      rw [BlockString2.EndsBadly, hpower]
      rintro (hbad | ⟨d, hd, s, hs, hbad⟩)
      · exact hfirst fronts hfronts hbad
      · obtain ⟨front, hfront, rfl⟩ :=
          (hfinds fronts (hbelow.returns hfronts)).complete hsettled.1 d hd
        obtain ⟨-, -, hnexts⟩ := hall front hfront hs.1
        obtain ⟨behind, hbehind, hsub⟩ := hnexts s hs
        rcases hbad with hbad | ⟨last, hlast, hlt⟩
        · exact hbutOne s behind hbehind hbad
        · -- the straw that ends there has been joined to the one in front
          have hbehindEnd := returns_hooked2 hbehind
          obtain ⟨straw, hstraw, rfl⟩ := (finds_rBlockString2 hstarts nextButOne hstars.2.2 s _
            ((hooked_below2 hstarts nextButOne hstars.2.2 s).returns hbehind)).complete
              hsettled.2.2 last hlast
          have hjoined := hends _ (hsub (mem_prependToAll.mpr
            ⟨straw, hstraw, (hbehindEnd straw hstraw).isEmpty, rfl⟩))
          exact not_le.mpr hlt ((Straw.endsWell_prepend_iff (hfrontsEnd front hfront)
            (hbehindEnd straw hstraw)).mp hjoined)
    | none =>
      rw [hpower] at h
      obtain ⟨fronts, hfronts, -, hall⟩ := returns_nonPowerChain (returns_asserting h).1
      rw [BlockString2.EndsBadly, hpower]
      rintro (hbad | ⟨d, hd, hbad⟩)
      · exact hfirst fronts hfronts hbad
      · obtain ⟨front, hfront, rfl⟩ :=
          (hfinds fronts (hbelow.returns hfronts)).complete hsettled.1 d hd
        obtain ⟨behind, hbehind, -⟩ := hall front hfront
        exact hrest _ behind hbehind hbad

theorem not_endsBadly (hstarts : env.StartsBy e) : ∀ b : BlockString C, b.StarSets →
    b.AllBlocks Block.InstSound → b.AllBlocks (Block.Settled env rGroup) → ∀ m los,
      Returns (hookedBlockString env rGroup U Su maxRange asserting b m) los →
        ¬ b.EndsBadly env rGroup e U Su maxRange m
  | .blockString2 b, hstars, hinst, hsettled, m, los, h => by
    rw [hookedBlockString] at h
    exact not_endsBadly2 hstarts b hstars hinst hsettled m los h
  | .or b rest, hstars, hinst, hsettled, m, los, h => by
    rw [hookedBlockString] at h
    obtain ⟨los₁, los₂, h₁, h₂, -⟩ := returns_orJoin (returns_asserting h).1
    rw [BlockString.EndsBadly]
    exact fun hbad => hbad.elim
      (not_endsBadly2 hstarts b hstars.1 hinst.1 hsettled.1 m los₁ h₁)
      (not_endsBadly hstarts rest hstars.2 hinst.2 hsettled.2 m los₂ h₂)

end

/-! ## 7. Strings that do not look back -/

mutual

/-- From monad 1 on, strings whose power blocks are not followed by blocks that look back do not end
badly. -/
theorem BlockString0.Forward.not_endsBadly (h : e.Promised U Su) (hlast : U.last ≤ Su.last)
    (hmax : 0 ≤ maxRange) : ∀ {b : BlockString0 C}, b.StarSets → b.AllBlocks Block.InstSound →
      b.Forward (BlockString1.StaysForward e) → ∀ m, 1 ≤ m →
        ¬ b.EndsBadly env rGroup e U Su maxRange m
  | .block b, _, _, _, m, hm => fun hbad => not_lt.mpr hm hbad.1
  | .blockString b, hstars, hinst, hb, m, hm => by
    rw [BlockString0.EndsBadly]
    exact BlockString.Forward.not_endsBadly h hlast hmax hstars hinst hb m hm

theorem BlockString1.Forward.not_endsBadly (h : e.Promised U Su) (hlast : U.last ≤ Su.last)
    (hmax : 0 ≤ maxRange) : ∀ {b : BlockString1 C}, b.StarSets → b.AllBlocks Block.InstSound →
      b.Forward (BlockString1.StaysForward e) → ∀ m, 1 ≤ m →
        ¬ b.EndsBadly env rGroup e U Su maxRange m
  | .nonStar b, hstars, hinst, hb, m, hm => by
    rw [BlockString1.EndsBadly]
    exact BlockString0.Forward.not_endsBadly h hlast hmax hstars hinst hb m hm
  | .star b starSOM, hstars, hinst, hb, m, hm => by
    have hR := BlockString0.Forward.not_endsBadly h hlast hmax hstars.2 hinst hb
    rw [BlockString1.EndsBadly]
    rintro (⟨hlt, -⟩ | hbad | ⟨d, ⟨-, n, hone, -, hrepeats⟩, hbad⟩)
    · exact not_lt.mpr hm hlt
    · exact hR m hm hbad
    · have := hrepeats.nonneg (onward_blockString0 h hlast hmax b hstars.2 hinst hb) hone
      exact hR (d + 1) (by omega) hbad

theorem BlockString2.Forward.not_endsBadly (h : e.Promised U Su) (hlast : U.last ≤ Su.last)
    (hmax : 0 ≤ maxRange) : ∀ {b : BlockString2 C}, b.StarSets → b.AllBlocks Block.InstSound →
      b.Forward (BlockString1.StaysForward e) → ∀ m, 1 ≤ m →
        ¬ b.EndsBadly env rGroup e U Su maxRange m
  | .blockString1 _ b, hstars, hinst, hb, m, hm => by
    rw [BlockString2.EndsBadly]
    exact BlockString1.Forward.not_endsBadly h hlast hmax hstars hinst hb m hm
  | .sequence _ b (.blockString1 node next), hstars, hinst, hb, m, hm => by
    rw [BlockString2.EndsBadly]
    rintro (hbad | ⟨d, hd, -, hbad⟩)
    · exact BlockString1.Forward.not_endsBadly h hlast hmax hstars.1 hinst.1 hb.1 m hm hbad
    · have := (onward_blockString1 h hlast hmax b hstars.1 hinst.1 hb.1 m).nonneg d hd
      exact BlockString2.Forward.not_endsBadly (b := .blockString1 node next) h hlast hmax hstars.2
        hinst.2 hb.2 (d + 1) (by omega) hbad
  | .sequence _ b (.sequence node next nextButOne), hstars, hinst, hb, m, hm => by
    have hforward := hb.2
    rw [BlockString2.EndsBadly]
    rintro (hbad | ⟨d, hd, hbad⟩)
    · exact BlockString1.Forward.not_endsBadly h hlast hmax hstars.1 hinst.1 hb.1 m hm hbad
    · have hd' := (onward_blockString1 h hlast hmax b hstars.1 hinst.1 hb.1 m).nonneg d hd
      cases hpower : next.getPowerBlock with
      | some power =>
        rw [hpower] at hforward hbad
        obtain ⟨hlimits, hlooks, hnext⟩ := hforward
        obtain ⟨s, hs, hbad⟩ := hbad
        have hlow := hlimits.low_nonneg hmax
        have hs' := (le_of_startsBehind h hlooks hs).1
        rcases hbad with hbad | ⟨last, hspans, hlt⟩
        · exact BlockString2.Forward.not_endsBadly h hlast hmax hstars.2.2 hinst.2.2 hnext s
            (by omega) hbad
        · have := (onward_blockString2 h hlast hmax nextButOne hstars.2.2 hinst.2.2 hnext
            s).sub_one_le last hspans
          omega
      | none =>
        rw [hpower] at hforward hbad
        exact BlockString2.Forward.not_endsBadly (b := .sequence node next nextButOne) h hlast hmax
          hstars.2 hinst.2 hforward (d + 1) (by omega) hbad

theorem BlockString.Forward.not_endsBadly (h : e.Promised U Su) (hlast : U.last ≤ Su.last)
    (hmax : 0 ≤ maxRange) : ∀ {b : BlockString C}, b.StarSets → b.AllBlocks Block.InstSound →
      b.Forward (BlockString1.StaysForward e) → ∀ m, 1 ≤ m →
        ¬ b.EndsBadly env rGroup e U Su maxRange m
  | .blockString2 b, hstars, hinst, hb, m, hm => by
    rw [BlockString.EndsBadly]
    exact BlockString2.Forward.not_endsBadly h hlast hmax hstars hinst hb m hm
  | .or b rest, hstars, hinst, hb, m, hm => by
    rw [BlockString.EndsBadly]
    exact fun hbad => hbad.elim
      (BlockString2.Forward.not_endsBadly h hlast hmax hstars.1 hinst.1 hb.1 m hm)
      (BlockString.Forward.not_endsBadly h hlast hmax hstars.2 hinst.2 hb.2 m hm)

end

end EndsBadly

/-! ## 8. Where straws end -/

section Ends

variable {C S σ : Type}

end Ends

section Words

end Words

end Emdros
