/-
# The rounds of a star

Each round of the loop of the Kleene star tries the block string right behind every partial match
and keeps what it finds.  `rStarRounds` is the star with a record of its rounds, and `Repeats` says
which partial matches there can be, from a relation `P` between the monad where the block string is
tried and the last monad of what is found there.

What one call has found may depend on the state that others have left behind.  So `P` is to hold of
whatever is found, and only if nothing depends on the state (`settled`) is all found that it holds
of (`Finds`).  From this about the block string follows the same about the star (`finds_rStar`) and
about the record (`recorded_rStarRounds`): its round number `i` tries the ends of `i` repetitions,
and there is one as long as there are repetitions and the star's set has not come to its end.

Sections 1 to 3 have what is needed of blocks, relations and `R_restrict` besides.
-/
import Emdros.MQL.StrawEnds

namespace Emdros

open Partial

variable {C : Type}

/-! ## 1. What blocks find -/

/-- The objects of an inst are not empty, start where the inst says, and not before the first
monad. -/
def Block.InstSound : Block C → Prop
  | .objectBlock (.mk info _) => ∀ o ∈ info.inst,
      o.monads.RepInv ∧ o.monads.monadMs ≠ [] ∧ o.monads.first = o.first ∧ 1 ≤ o.first
  | _ => True

/-- A word of one monad is such an object. -/
theorem wordAt_sound (idD : Nat) {m : Int} (h : 1 ≤ m) (hmax : m ≤ maxMonad) :
    (wordAt idD m).monads.RepInv ∧ (wordAt idD m).monads.monadMs ≠ [] ∧
      (wordAt idD m).monads.first = (wordAt idD m).first ∧ 1 ≤ (wordAt idD m).first := by
  obtain ⟨hrep, hmem⟩ := StartMonadInfo.monadRange_repInv (le_refl m) (by omega) hmax
  have hm : m ∈ (StartMonadInfo.monadRange m m le_rfl).mem := by simp [hmem]
  have hne := StartMonadInfo.ne_nil_of_mem hm
  have hleast := (hrep.isLeast_first hne).1
  rw [hmem, Set.mem_Icc] at hleast
  exact ⟨hrep, hne, le_antisymm hleast.2 hleast.1, h⟩

/-- Not a power block. -/
def Block.NoPower : Block C → Prop
  | .powerBlock _ => False
  | _ => True

/-- What the block finds is an object or a gap. -/
def Block.Consumes : Block C → Prop
  | .gapBlock _ => True
  | .objectBlock _ => True
  | _ => False

mutual

/-- Whatever the string finds, there is an object or a gap in it: there is a block in each of its
alternatives that finds one, outside of stars. -/
def BlockString0.Consumes : BlockString0 C → Prop
  | .block b => b.Consumes
  | .blockString b => b.Consumes

def BlockString1.Consumes : BlockString1 C → Prop
  | .nonStar b => b.Consumes
  | .star _ _ => False

def BlockString2.Consumes : BlockString2 C → Prop
  | .blockString1 _ b => b.Consumes
  | .sequence _ b rest => b.Consumes ∨ rest.Consumes

def BlockString.Consumes : BlockString C → Prop
  | .blockString2 b => b.Consumes
  | .or b rest => b.Consumes ∧ rest.Consumes

end

theorem BlockString1.of_getPowerBlock : ∀ {b : BlockString1 C} {power : Power},
    b.getPowerBlock = some power → ¬ b.AllBlocks Block.NoPower ∧ ¬ b.Consumes
  | .nonStar (.block (.powerBlock _)), _, _ => ⟨False.elim, False.elim⟩
  | .star (.block (.powerBlock _)) _, _, _ => ⟨False.elim, False.elim⟩

/-! ## 2. Relations -/

section Relations

variable {U Su : SetOfMonads}

/-- What the monads of an object are related to. -/
def MonadSetRelationClause.related (msrc : MonadSetRelationClause) (U Su : SetOfMonads) :
    SetOfMonads :=
  if msrc.universeOrSubstrate = .kMSNSubstrate then Su else U

/-- An object that satisfies its relation has a monad there: its first one, unless the relation is
`overlap`. -/
theorem exists_mem_of_exec {msrc : MonadSetRelationClause} {o : SetOfMonads} (ho : o.RepInv)
    (hne : o.monadMs ≠ []) (hU : U.RepInv) (hSu : Su.RepInv)
    (h : msrc.exec o U Su = some true) :
    ∃ x ∈ o.mem, x ∈ (msrc.related U Su).mem ∧
      (msrc.operation ≠ .kMSROOverlap → x = o.first) := by
  obtain ⟨operation, name⟩ := msrc
  have hrelated : ∀ som : SetOfMonads, som.RepInv →
      MonadSetRelationClause.exec ⟨operation, .kMSNSubstrate⟩ o som som = some true →
      ∃ x ∈ o.mem, x ∈ som.mem ∧ (operation ≠ .kMSROOverlap → x = o.first) := by
    intro som hsom hexec
    have hfirst := ho.isLeast_first hne
    cases operation with
    | kMSROPartOf =>
      obtain ⟨r, hr, hiff⟩ := SetOfMonads.partOf_of_nonempty ho hsom hne
      exact ⟨_, hfirst.1, hiff.mp (Option.some.inj (hr.symm.trans hexec)) hfirst.1, fun _ => rfl⟩
    | kMSROOverlap =>
      obtain ⟨x, hx, hin⟩ := (SetOfMonads.overlap_iff ho hsom).mp (Option.some.inj hexec)
      exact ⟨x, hx, hin, fun hop => absurd rfl hop⟩
    | kMSROStartsIn =>
      obtain ⟨x, hx, hin⟩ := (SetOfMonads.startsIn_of_nonempty ho hsom hne).mp
        (Option.some.inj hexec)
      exact ⟨x, hx.1, hin, fun _ => hx.unique hfirst⟩
  cases name with
  | kMSNUniverse => exact hrelated U hU h
  | kMSNSubstrate => exact hrelated Su hSu h

/-- It starts before the end of what it is related to. -/
theorem first_le_of_exec {msrc : MonadSetRelationClause} {o : SetOfMonads} (ho : o.RepInv)
    (hne : o.monadMs ≠ []) (hU : U.RepInv) (hSu : Su.RepInv) (hlast : U.last ≤ Su.last)
    (h : msrc.exec o U Su = some true) : o.first ≤ Su.last := by
  obtain ⟨x, hx, hin, -⟩ := exists_mem_of_exec ho hne hU hSu h
  have hfirst : o.first ≤ x := (ho.isLeast_first hne).2 hx
  have hbefore : ∀ som : SetOfMonads, som.RepInv → som.last ≤ Su.last → x ∈ som.mem →
      x ≤ Su.last := fun som hsom hle hmem =>
    le_trans ((hsom.isGreatest_last (StartMonadInfo.ne_nil_of_mem hmem)).2 hmem) hle
  unfold MonadSetRelationClause.related at hin
  split at hin
  · exact le_trans hfirst (hbefore Su hSu le_rfl hin)
  · exact le_trans hfirst (hbefore U hU hlast hin)

end Relations

/-! ## 3. `R_restrict` -/

/-- `R_restrict` keeps the monads from a monad on. -/
theorem rRestrict_spec {som : SetOfMonads} (h : som.RepInv) (monad : Int) :
    (rRestrict som monad).RepInv ∧ (rRestrict som monad).mem = {m ∈ som.mem | monad ≤ m} := by
  have hfrom : ∀ m ∈ som.mem, som.first ≤ m := fun m hm =>
    (h.isLeast_first (StartMonadInfo.ne_nil_of_mem hm)).2 hm
  unfold rRestrict
  dsimp only
  split
  · rename_i hle
    obtain ⟨hrep, hmem⟩ := SetOfMonads.removeRange_spec h hle
    refine ⟨hrep, hmem.trans (Set.ext fun m => and_congr_right fun hm => ?_)⟩
    have hm' := hfrom m hm
    rw [Set.mem_Icc]
    omega
  · refine ⟨h, Set.ext fun m => ⟨fun hm => ⟨hm, ?_⟩, And.left⟩⟩
    have hm' := hfrom m hm
    omega

/-- What is left of the substrate is behind the monad. -/
theorem le_last_of_rRestrict {Su : SetOfMonads} {Sm : Int} (hSu : Su.RepInv)
    (hrest : (rRestrict Su Sm).isEmpty = false) :
    Su.monadMs ≠ [] ∧ Sm ≤ Su.last := by
  obtain ⟨hrep, hmem⟩ := rRestrict_spec hSu Sm
  have hne : (rRestrict Su Sm).monadMs ≠ [] := fun hnil => by
    rw [SetOfMonads.isEmpty_iff.mpr hnil] at hrest
    cases hrest
  have hin := (hrep.isLeast_first hne).1
  rw [hmem] at hin
  have hSune := StartMonadInfo.ne_nil_of_mem hin.1
  exact ⟨hSune, le_trans hin.2 ((hSu.isGreatest_last hSune).2 hin.1)⟩

/-! ## 4. Repetitions -/

/-- The last monad of `n` repetitions from a monad on, each of them tried right behind the one
before; `P` relates the monad where one is tried to its last monad. -/
inductive Repeats (P : Int → Int → Prop) (m : Int) : Nat → Int → Prop
  | zero : Repeats P m 0 (m - 1)
  | succ {n : Nat} {d last : Int} (before : Repeats P m n d) (next : P (d + 1) last) :
      Repeats P m (n + 1) last

/-- What a list of straws has: only such last monads, and, if it is settled what is found, all. -/
structure Finds (P : Int → Prop) (settled : Prop) (los : List Straw) : Prop where
  sound : ∀ straw ∈ los, straw.isEmpty = false ∧ P straw.last
  complete : settled → ∀ last, P last → ∃ straw ∈ los, straw.last = last

namespace Finds

variable {P Q : Int → Prop} {settled settled' : Prop} {los los' : List Straw}

theorem nil (h : ∀ last, ¬ P last) : Finds P settled [] :=
  ⟨fun _ hmem => absurd hmem List.not_mem_nil, fun _ last hlast => absurd hlast (h last)⟩

theorem singleton {straw : Straw} (hne : straw.isEmpty = false)
    (h : ∀ last, P last ↔ last = straw.last) : Finds P settled [straw] := by
  refine ⟨List.forall_mem_singleton.mpr ⟨hne, (h _).mpr rfl⟩, fun _ last hlast => ?_⟩
  exact ⟨straw, List.mem_singleton_self straw, ((h last).mp hlast).symm⟩

theorem congr (h : Finds P settled los) (hP : ∀ last, P last ↔ Q last)
    (hsettled : settled' → settled) : Finds Q settled' los :=
  ⟨fun straw hstraw => ⟨(h.sound straw hstraw).1, (hP _).mp (h.sound straw hstraw).2⟩,
    fun hs last hlast => h.complete (hsettled hs) last ((hP last).mpr hlast)⟩

theorem append (h : Finds P settled los) (h' : Finds Q settled' los') :
    Finds (fun last => P last ∨ Q last) (settled ∧ settled') (los ++ los') := by
  refine ⟨List.forall_mem_append.mpr ⟨fun straw hstraw => ?_, fun straw hstraw => ?_⟩, ?_⟩
  · exact ⟨(h.sound straw hstraw).1, Or.inl (h.sound straw hstraw).2⟩
  · exact ⟨(h'.sound straw hstraw).1, Or.inr (h'.sound straw hstraw).2⟩
  · rintro ⟨hs, hs'⟩ last (hlast | hlast)
    · obtain ⟨straw, hstraw, heq⟩ := h.complete hs last hlast
      exact ⟨straw, List.mem_append_left los' hstraw, heq⟩
    · obtain ⟨straw, hstraw, heq⟩ := h'.complete hs' last hlast
      exact ⟨straw, List.mem_append_right los hstraw, heq⟩

end Finds

section Levels

variable {σ : Type} {R : Int → Eval σ (List Straw)} {Sm : Int} {L L' : List (List Straw)}

/-- A sequence of the next level is one of this level and a straw that was found behind it... -/
theorem Extends.of_mem (h : Extends R Sm L L') : ∀ ts' ∈ L', ∃ ts ∈ L, ∃ los,
    Returns (R (nextMonad Sm ts)) los ∧ ∃ t ∈ los, ts' = ts ++ [t] := by
  induction h with
  | nil => exact fun _ hmem => absurd hmem List.not_mem_nil
  | @cons ts L L' los returns rest ih =>
    intro ts' hts'
    rcases List.mem_append.mp hts' with hts' | hts'
    · obtain ⟨t, ht, rfl⟩ := List.mem_map.mp hts'
      exact ⟨ts, List.mem_cons_self, los, returns, t, ht, rfl⟩
    · obtain ⟨ts₁, hts₁, h⟩ := ih ts' hts'
      exact ⟨ts₁, List.mem_cons_of_mem ts hts₁, h⟩

/-- ...and all that was found behind one is kept. -/
theorem Extends.extended (h : Extends R Sm L L') : ∀ ts ∈ L, ∃ los,
    Returns (R (nextMonad Sm ts)) los ∧ ∀ t ∈ los, ts ++ [t] ∈ L' := by
  induction h with
  | nil => exact fun _ hmem => absurd hmem List.not_mem_nil
  | @cons ts L L' los returns rest ih =>
    intro ts₁ hts₁
    rcases List.mem_cons.mp hts₁ with rfl | hts₁
    · exact ⟨los, returns, fun t ht => List.mem_append_left L' (List.mem_map_of_mem ht)⟩
    · obtain ⟨los₁, hlos₁, h⟩ := ih ts₁ hts₁
      exact ⟨los₁, hlos₁, fun t ht => List.mem_append_right _ (h t ht)⟩

variable {P : Int → Int → Prop} {settled : Prop} {starSOM : SetOfMonads}

/-- The sequences of `n` repetitions. -/
structure LevelOf (P : Int → Int → Prop) (settled : Prop) (Sm : Int) (n : Nat)
    (L : List (List Straw)) : Prop where
  sound : ∀ ts ∈ L, Repeats P Sm n (nextMonad Sm ts - 1) ∧ ∀ t ∈ ts, t.isEmpty = false
  complete : settled → ∀ d, Repeats P Sm n d → ∃ ts ∈ L, nextMonad Sm ts = d + 1

theorem levelOf_zero : LevelOf P settled Sm 0 [[]] := by
  refine ⟨List.forall_mem_singleton.mpr ⟨.zero, fun _ hmem => absurd hmem List.not_mem_nil⟩, ?_⟩
  intro _ d hd
  cases hd
  exact ⟨[], List.mem_singleton_self [], (sub_add_cancel Sm 1).symm⟩

theorem LevelOf.step {n : Nat} (h : LevelOf P settled Sm n L) (hext : Extends R Sm L L')
    (hR : ∀ m los, Returns (R m) los → Finds (P m) settled los) :
    LevelOf P settled Sm (n + 1) L' := by
  constructor
  · intro ts' hts'
    obtain ⟨ts, hts, los, hlos, t, ht, rfl⟩ := hext.of_mem ts' hts'
    obtain ⟨hrepeats, hne⟩ := h.sound ts hts
    obtain ⟨htne, hP⟩ := (hR _ los hlos).sound t ht
    refine ⟨?_, List.forall_mem_append.mpr ⟨hne, List.forall_mem_singleton.mpr htne⟩⟩
    rw [nextMonad_append, add_sub_cancel_right]
    exact .succ hrepeats (by rwa [sub_add_cancel])
  · intro hs last hlast
    cases hlast with
    | @succ _ d _ before next =>
      obtain ⟨ts, hts, hnext⟩ := h.complete hs d before
      obtain ⟨los, hlos, hkept⟩ := hext.extended ts hts
      rw [hnext] at hlos
      obtain ⟨t, ht, hlast⟩ := (hR _ los hlos).complete hs last next
      exact ⟨ts ++ [t], hkept t ht, by rw [nextMonad_append, hlast]⟩

theorem concat_spec (Sm : Int) {ts : List Straw} (hts : ts ≠ [])
    (hne : ∀ t ∈ ts, t.isEmpty = false) :
    (Straw.concat ts).isEmpty = false ∧ (Straw.concat ts).last = nextMonad Sm ts - 1 := by
  rcases List.eq_nil_or_concat ts with rfl | ⟨ts', t, rfl⟩
  · exact absurd rfl hts
  · rw [List.concat_eq_append, nextMonad_append, add_sub_cancel_right]
    refine ⟨?_, by simp [Straw.concat, Straw.last]⟩
    have ht : t.list ≠ [] := List.isEmpty_eq_false_iff.mp (hne t (by simp))
    have hlist : (Straw.concat (ts' ++ [t])).list
        = (ts' ++ [t]).flatMap fun t => t.list.map MatchedObject.copyMO := rfl
    rw [Straw.isEmpty, hlist, List.flatMap_append]
    simp [ht]

/-- **What a star finds**: the straw of a block that was skipped, if 0 is in its set, and the ends
of so many repetitions as there are in it. -/
theorem finds_rStar (hs : starSOM.IsStarSet)
    (hR : ∀ m los, Returns (R m) los → Finds (P m) settled los) {los : List Straw}
    (hlos : Returns (rStar starSOM Sm R) los) :
    Finds (fun last => 0 ∈ starSOM.mem ∧ last = (Straw.skipped Sm).last ∨
      ∃ n : Nat, 1 ≤ n ∧ (n : Int) ∈ starSOM.mem ∧ Repeats P Sm n last) settled los := by
  obtain ⟨level, hzero, hext, rfl, -⟩ := hlos.ensured (rStar_denotes hs)
  have hlevel : ∀ n : Nat, (n : Int) ≤ starSOM.last → LevelOf P settled Sm n (level n) := by
    intro n
    induction n with
    | zero => exact fun _ => hzero ▸ levelOf_zero
    | succ n ih => exact fun hn => (ih (by omega)).step (hext n (by omega)) hR
  have hlater : ∀ n : Nat, 1 ≤ n → (n : Int) ≤ starSOM.last → ∀ ts ∈ level n, ts ≠ [] := by
    intro n hn hlast
    obtain ⟨n, rfl⟩ := Nat.exists_eq_add_of_le' hn
    exact (hext n (by omega)).ne_nil
  have happend : ∀ los₁ los₂ : List Straw,
      Finds (fun last => 0 ∈ starSOM.mem ∧ last = (Straw.skipped Sm).last) True los₁ →
      Finds (fun last => ∃ n : Nat, 1 ≤ n ∧ (n : Int) ∈ starSOM.mem ∧ Repeats P Sm n last) settled
        los₂ →
      Finds (fun last => 0 ∈ starSOM.mem ∧ last = (Straw.skipped Sm).last ∨
        ∃ n : Nat, 1 ≤ n ∧ (n : Int) ∈ starSOM.mem ∧ Repeats P Sm n last) settled (los₁ ++ los₂) :=
    fun _ _ h h' => (h.append h').congr (fun _ => Iff.rfl) fun hs => ⟨trivial, hs⟩
  refine happend _ _ ?_ ?_
  · by_cases hmem : 0 ∈ starSOM.mem
    · rw [if_pos hmem]
      exact Finds.singleton rfl fun last => and_iff_right hmem
    · rw [if_neg hmem]
      exact Finds.nil fun last hlast => hmem hlast.1
  · constructor
    · intro straw hstraw
      obtain ⟨n, hn, hstraw⟩ := List.mem_flatMap.mp hstraw
      obtain ⟨ts, hts, rfl⟩ := List.mem_map.mp hstraw
      obtain ⟨hone, hmem⟩ := (mem_repetitionsAfter_zero hs).mp hn
      have hle := hs.isGreatest.2 hmem
      obtain ⟨hrepeats, hne⟩ := (hlevel n hle).sound ts hts
      obtain ⟨hempty, hlast⟩ := concat_spec Sm (hlater n hone hle ts hts) hne
      exact ⟨hempty, n, hone, hmem, hlast ▸ hrepeats⟩
    · rintro hsettled last ⟨n, hone, hmem, hrepeats⟩
      have hle := hs.isGreatest.2 hmem
      obtain ⟨ts, hts, hnext⟩ := (hlevel n hle).complete hsettled last hrepeats
      obtain ⟨-, hlast⟩ := concat_spec Sm (hlater n hone hle ts hts)
        ((hlevel n hle).sound ts hts).2
      refine ⟨Straw.concat ts, ?_, by rw [hlast, hnext, add_sub_cancel_right]⟩
      exact List.mem_flatMap.mpr ⟨n, (mem_repetitionsAfter_zero hs).mpr ⟨hone, hmem⟩,
        List.mem_map_of_mem hts⟩

end Levels

/-! ## 5. The record -/

section Rounds

variable {σ : Type} {R : Int → Eval σ (List Straw)} {starSOM : SetOfMonads}

/-- A round: the partial matches, each with what was found right behind it. -/
abbrev Round := List (Straw × List Straw)

/-- The partial matches that are made of one. -/
def keptBehind (found : Straw × List Straw) : List Straw :=
  if found.2.isEmpty then [] else ListOfStraws.join found.2 found.1

/-- `pLOS4`. -/
def Round.kept (round : Round) : List Straw := round.flatMap keptBehind

/-- `bContinue`. -/
def Round.bContinue (round : Round) : Bool := round.any fun found => !found.2.isEmpty

/-- What a round asks. -/
def tryBehind (R : Int → Eval σ (List Straw)) : List Straw → Eval σ Round
  | [] => pure []
  | straw :: los => do
    let los3 ← R (straw.last + 1)
    let round ← tryBehind R los
    pure ((straw, los3) :: round)

/-- `starLoop`, with the rounds. -/
def starLoopRounds (starSOM : SetOfMonads) (R : Int → Eval σ (List Straw)) :
    Nat → Int → List Straw → List MonadSetElement → List Straw → Eval σ (List Straw × List Round)
  | 0, _, _, _, _ => failure
  | fuel + 1, count, los, somIt, resultLOS => do
    let round ← tryBehind R los
    if round.bContinue then do
      let (bMember, somIt) ← ofOption (starSOM.isMemberOfHint count somIt)
      let resultLOS := if bMember then ListOfStraws.appendACopy resultLOS round.kept else resultLOS
      if somIt.isEmpty then pure (resultLOS, [round])
      else do
        let (los, rounds) ←
          starLoopRounds starSOM R fuel (count + 1) round.kept somIt resultLOS
        pure (los, round :: rounds)
    else pure (resultLOS, [round])

/-- `rStar`, with the rounds of its loop. -/
def rStarRounds (starSOM : SetOfMonads) (Sm : Int) (R : Int → Eval σ (List Straw)) :
    Eval σ (List Straw × List Round) := do
  let los ← R Sm
  let emptyStraw := Straw.new.append (MatchedObject.ofEmpty (Sm - 1))
  if los.isEmpty then
    if starSOM.isMemberOf 0 then pure ([emptyStraw], []) else pure ([], [])
  else do
    let (bZero, somIt) ← ofOption (starSOM.isMemberOfHint 0 starSOM.monadMs)
    let resultLOS := if bZero then [emptyStraw] else []
    let (bOne, somIt) ← ofOption (starSOM.isMemberOfHint 1 somIt)
    let resultLOS := if bOne then ListOfStraws.appendACopy resultLOS los else resultLOS
    if starSOM.last ≥ 2 then
      starLoopRounds starSOM R starSOM.last.toNat 2 los somIt resultLOS
    else pure (resultLOS, [])

/-- The loop of a round, from some of its result on. -/
theorem foldlM_round (R : Int → Eval σ (List Straw)) : ∀ (los : List Straw)
    (v : List Straw × Bool), los.foldlM (fun (v : List Straw × Bool) straw => do
      let los3 ← R (straw.last + 1)
      if los3.isEmpty then pure v else pure (v.1 ++ ListOfStraws.join los3 straw, true)) v
      = (do
        let round ← tryBehind R los
        pure (v.1 ++ Round.kept round, v.2 || Round.bContinue round))
  | [], v => by
    rw [List.foldlM_nil, tryBehind, pure_bind]
    simp [Round.kept, Round.bContinue]
  | straw :: los, v => by
    rw [List.foldlM_cons, tryBehind, bind_assoc, bind_assoc]
    refine bind_congr fun los3 => ?_
    rw [bind_assoc]
    by_cases hempty : los3.isEmpty = true
    · rw [if_pos hempty, pure_bind, foldlM_round R los]
      refine bind_congr fun round => ?_
      simp [Round.kept, Round.bContinue, keptBehind, hempty]
    · rw [if_neg hempty, pure_bind, foldlM_round R los]
      refine bind_congr fun round => ?_
      simp [Round.kept, Round.bContinue, keptBehind, hempty]

theorem starRound_eq (los : List Straw) :
    starRound R los
      = (do let round ← tryBehind R los; pure (Round.kept round, Round.bContinue round)) := by
  rw [starRound, foldlM_round]
  simp

/-- The loop does what it does without the record. -/
theorem starLoopRounds_fst (starSOM : SetOfMonads) (R : Int → Eval σ (List Straw)) : ∀ (fuel : Nat)
    (count : Int) (los : List Straw) (somIt : List MonadSetElement) (resultLOS : List Straw),
    (do let r ← starLoopRounds starSOM R fuel count los somIt resultLOS; pure r.1)
      = starLoop starSOM R fuel count los somIt resultLOS := by
  intro fuel
  induction fuel with
  | zero => exact fun _ _ _ _ => rfl
  | succ fuel ih =>
    intro count los somIt resultLOS
    rw [starLoopRounds, starLoop, starRound_eq, bind_assoc, bind_assoc]
    refine bind_congr fun round => ?_
    rw [pure_bind]
    dsimp only
    split
    · rw [bind_assoc]
      refine bind_congr fun hint => ?_
      split
      · rw [pure_bind]
      · rw [← ih, bind_assoc]
        exact bind_congr fun r => pure_bind _ _
    · rw [pure_bind]

/-- The star does what it does without the record. -/
theorem rStarRounds_fst (starSOM : SetOfMonads) (Sm : Int) (R : Int → Eval σ (List Straw)) :
    (do let r ← rStarRounds starSOM Sm R; pure r.1) = rStar starSOM Sm R := by
  rw [rStarRounds, rStar, bind_assoc]
  refine bind_congr fun los => ?_
  split
  · split
    · rw [pure_bind]
    · rw [pure_bind]
  · rw [bind_assoc]
    refine bind_congr fun hint => ?_
    rw [bind_assoc]
    refine bind_congr fun hint' => ?_
    obtain ⟨bOne, somIt⟩ := hint'
    dsimp only
    split
    · exact starLoopRounds_fst _ _ _ _ _ _ _
    · rw [pure_bind]

/-- All partial matches that are kept end behind those that they are made of. -/
def Greater (rounds : List Round) : Prop :=
  ∀ round ∈ rounds, ∀ behind ∈ round, ∀ straw ∈ keptBehind behind, behind.1.last < straw.last

theorem mem_keptBehind {behind : Straw × List Straw} {straw : Straw} :
    straw ∈ keptBehind behind ↔ ∃ found ∈ behind.2, straw = found.prepend behind.1 := by
  unfold keptBehind ListOfStraws.join
  cases h : behind.2.isEmpty with
  | true => simp [List.isEmpty_iff.mp h]
  | false => simp [eq_comm]

/-! ## 6. What the record has -/

variable {Sm : Int} {P : Int → Int → Prop} {settled : Prop}

/-- Round number `i` tries the ends of `i` repetitions, as far as the star's set goes; if it is
settled what is found, all of them. -/
structure RoundsRecorded (P : Int → Int → Prop) (settled : Prop)
    (R : Int → Eval σ (List Straw)) (starSOM : SetOfMonads) (Sm : Int) (n : Nat)
    (rounds : List Round) : Prop where
  sound : ∀ (i : Nat) (round : Round), rounds[i]? = some round →
    round ≠ [] ∧ ((n + i : Nat) : Int) ≤ starSOM.last ∧ ∀ behind ∈ round,
      Repeats P Sm (n + i) behind.1.last ∧ Returns (R (behind.1.last + 1)) behind.2
  complete : settled → ∀ (i : Nat) (d : Int), ((n + i : Nat) : Int) ≤ starSOM.last →
    Repeats P Sm (n + i) d → ∃ round, rounds[i]? = some round ∧
      ∃ behind ∈ round, behind.1.last = d

/-- What a round has tried. -/
theorem returns_tryBehind : ∀ {los : List Straw} {round : Round}, Returns (tryBehind R los) round →
    (∀ behind ∈ round, behind.1 ∈ los ∧ Returns (R (behind.1.last + 1)) behind.2) ∧
      ∀ straw ∈ los, ∃ behind ∈ round, behind.1 = straw
  | [], round, h => by
    rw [tryBehind] at h
    rw [h.of_pure]
    simp
  | straw :: los, round, h => by
    rw [tryBehind] at h
    obtain ⟨los3, hlos3, hrest⟩ := h.of_bind
    obtain ⟨round', hround', rfl⟩ := hrest.of_bind_pure
    obtain ⟨hof, hall⟩ := returns_tryBehind hround'
    refine ⟨List.forall_mem_cons.mpr ⟨⟨List.mem_cons_self, hlos3⟩, fun behind hbehind => ?_⟩,
      List.forall_mem_cons.mpr ⟨⟨_, List.mem_cons_self, rfl⟩, fun straw' hstraw' => ?_⟩⟩
    · exact ⟨List.mem_cons_of_mem straw (hof behind hbehind).1, (hof behind hbehind).2⟩
    · obtain ⟨behind, hbehind, heq⟩ := hall straw' hstraw'
      exact ⟨behind, List.mem_cons_of_mem _ hbehind, heq⟩

/-- The ends of the partial matches that a round keeps are those of one more repetition. -/
theorem ends_kept {n : Nat} {los : List Straw} {round : Round}
    (hR : ∀ m los, Returns (R m) los → Finds (P m) settled los)
    (hround : Returns (tryBehind R los) round)
    (hlos : (∀ straw ∈ los, Repeats P Sm n straw.last) ∧
      (settled → ∀ d, Repeats P Sm n d → ∃ straw ∈ los, straw.last = d)) :
    (∀ straw ∈ round.kept, Repeats P Sm (n + 1) straw.last) ∧
      (settled → ∀ d, Repeats P Sm (n + 1) d → ∃ straw ∈ round.kept, straw.last = d) := by
  obtain ⟨hof, hall⟩ := returns_tryBehind hround
  constructor
  · intro straw hstraw
    obtain ⟨behind, hbehind, hmem⟩ := List.mem_flatMap.mp hstraw
    obtain ⟨found, hfound, rfl⟩ := mem_keptBehind.mp hmem
    obtain ⟨hin, hreturns⟩ := hof behind hbehind
    exact .succ (hlos.1 behind.1 hin) ((hR _ _ hreturns).sound found hfound).2
  · intro hs last hlast
    cases hlast with
    | @succ _ d _ before next =>
      obtain ⟨straw, hstraw, rfl⟩ := hlos.2 hs d before
      obtain ⟨behind, hbehind, rfl⟩ := hall straw hstraw
      obtain ⟨found, hfound, rfl⟩ := (hR _ _ (hof behind hbehind).2).complete hs last next
      exact ⟨found.prepend behind.1, List.mem_flatMap.mpr ⟨behind, hbehind,
        mem_keptBehind.mpr ⟨found, hfound, rfl⟩⟩, rfl⟩

theorem kept_ne_nil {round : Round} (h : round.bContinue = true) : round.kept ≠ [] := by
  obtain ⟨behind, hbehind, hfound⟩ := List.any_eq_true.mp h
  obtain ⟨found, hmem⟩ : ∃ found, found ∈ behind.2 :=
    List.exists_mem_of_ne_nil _ (by simpa using hfound)
  exact List.ne_nil_of_mem (List.mem_flatMap.mpr ⟨behind, hbehind,
    mem_keptBehind.mpr ⟨found, hmem, rfl⟩⟩)

theorem bContinue_of_mem_kept {round : Round} {straw : Straw} (h : straw ∈ round.kept) :
    round.bContinue = true := by
  obtain ⟨behind, hbehind, hmem⟩ := List.mem_flatMap.mp h
  obtain ⟨found, hfound, -⟩ := mem_keptBehind.mp hmem
  refine List.any_eq_true.mpr ⟨behind, hbehind, ?_⟩
  simpa using List.ne_nil_of_mem hfound

/-- Where there are more repetitions there were some before. -/
theorem Repeats.take {m : Int} {n : Nat} : ∀ {i : Nat} {d : Int}, Repeats P m (n + i) d →
    ∃ d', Repeats P m n d'
  | 0, d, h => ⟨d, h⟩
  | i + 1, _, .succ before _ => Repeats.take before

/-- From `n` repetitions on, which have been found. -/
theorem recorded_starLoopRounds (hs : starSOM.IsStarSet)
    (hR : ∀ m los, Returns (R m) los → Finds (P m) settled los) : ∀ (fuel n : Nat)
    (los : List Straw) (somIt : List MonadSetElement) (resultLOS : List Straw)
    (r : List Straw × List Round), los ≠ [] → (n : Int) ≤ starSOM.last → somIt ≠ [] →
    somIt <:+ starSOM.monadMs →
    (∀ straw ∈ los, Repeats P Sm n straw.last) ∧
      (settled → ∀ d, Repeats P Sm n d → ∃ straw ∈ los, straw.last = d) →
    Returns (starLoopRounds starSOM R fuel (n + 1 : Nat) los somIt resultLOS) r →
    RoundsRecorded P settled R starSOM Sm n r.2 := by
  intro fuel
  induction fuel with
  | zero => exact fun _ _ _ _ _ _ _ _ _ _ h => h.not_failure.elim
  | succ fuel ih =>
    intro n los somIt resultLOS r hstraws hn hne hsuffix hlos h
    rw [starLoopRounds] at h
    obtain ⟨round, hround, h⟩ := h.of_bind
    obtain ⟨hof, hall⟩ := returns_tryBehind hround
    have hkept := ends_kept hR hround hlos
    -- this round, whatever comes after it
    have htries : round ≠ [] := by
      obtain ⟨straw, hstraw⟩ := List.exists_mem_of_ne_nil los hstraws
      obtain ⟨behind, hbehind, -⟩ := hall straw hstraw
      exact List.ne_nil_of_mem hbehind
    have hfirst : ∀ behind ∈ round,
        Repeats P Sm n behind.1.last ∧ Returns (R (behind.1.last + 1)) behind.2 :=
      fun behind hbehind => ⟨hlos.1 _ (hof behind hbehind).1, (hof behind hbehind).2⟩
    have htried : settled → ∀ d, Repeats P Sm n d → ∃ behind ∈ round, behind.1.last = d := by
      intro hsettled d hd
      obtain ⟨straw, hstraw, rfl⟩ := hlos.2 hsettled d hd
      obtain ⟨behind, hbehind, rfl⟩ := hall straw hstraw
      exact ⟨behind, hbehind, rfl⟩
    have hlastRound : (settled → ∀ (i : Nat) (d : Int), ((n + (i + 1) : Nat) : Int) ≤ starSOM.last →
        ¬ Repeats P Sm (n + (i + 1)) d) → RoundsRecorded P settled R starSOM Sm n [round] := by
      intro hnone
      refine ⟨fun i round' hget => ?_, fun hsettled i d hle hd => ?_⟩
      · obtain ⟨rfl, rfl⟩ : i = 0 ∧ round = round' := by
          cases i with
          | zero => exact ⟨rfl, by simpa using hget⟩
          | succ i => simp at hget
        exact ⟨htries, hn, hfirst⟩
      · cases i with
        | zero => exact ⟨round, rfl, htried hsettled d hd⟩
        | succ i => exact absurd hd (hnone hsettled i d hle)
    rcases h.of_ite with ⟨hcontinue, h⟩ | ⟨hstop, h⟩
    · rcases lt_or_ge (n : Int) starSOM.last with hlt | hge
      · obtain ⟨somIt', hmember, hne', hsuffix'⟩ :=
          hs.isMemberOfHint_le (m := (n + 1 : Nat)) hne hsuffix (by omega)
        rw [hmember] at h
        obtain ⟨hint, hhint, h⟩ := h.of_bind
        cases hhint.of_ofOption
        dsimp only at h
        rw [if_neg (by simpa using hne')] at h
        obtain ⟨r', hr', rfl⟩ := h.of_bind_pure
        have hrest := ih (n + 1) round.kept somIt' _ r' (kept_ne_nil hcontinue) (by omega) hne'
          hsuffix' hkept hr'
        refine ⟨fun i round' hget => ?_, fun hsettled i d hle hd => ?_⟩
        · cases i with
          | zero =>
            cases Option.some.inj hget
            exact ⟨htries, hn, hfirst⟩
          | succ i =>
            have h := hrest.sound i round' (by simpa using hget)
            rw [Nat.add_right_comm] at h
            exact h
        · cases i with
          | zero => exact ⟨round, rfl, htried hsettled d hd⟩
          | succ i =>
            have h := hrest.complete hsettled i d
            rw [Nat.add_right_comm] at h
            obtain ⟨round', hget, hbehind⟩ := h hle hd
            exact ⟨round', by simpa using hget, hbehind⟩
      · -- the iterator goes past the end
        rw [SetOfMonads.isMemberOfHint_gt (by omega)] at h
        obtain ⟨hint, hhint, h⟩ := h.of_bind
        cases hhint.of_ofOption
        rw [h.of_pure]
        exact hlastRound fun _ i _ hle => absurd hle (by omega)
    · -- nothing was found, so there are no more repetitions
      rw [h.of_pure]
      refine hlastRound fun hsettled i d _ hd => ?_
      rw [← Nat.add_assoc, Nat.add_right_comm] at hd
      obtain ⟨d', hd'⟩ := hd.take
      obtain ⟨straw, hstraw, -⟩ := hkept.2 hsettled d' hd'
      exact hstop (bContinue_of_mem_kept hstraw)

/-- **The record of a star.**  The loop is entered if the set has a number from 2 on. -/
theorem recorded_rStarRounds (hs : starSOM.IsStarSet)
    (hR : ∀ m los, Returns (R m) los → Finds (P m) settled los) {r : List Straw × List Round}
    (h : Returns (rStarRounds starSOM Sm R) r) :
    (starSOM.last < 2 → r.2 = []) ∧
      (2 ≤ starSOM.last → RoundsRecorded P settled R starSOM Sm 1 r.2) := by
  rw [rStarRounds] at h
  obtain ⟨los, hlos, h⟩ := h.of_bind
  have hfinds := hR Sm los hlos
  have hone : (∀ straw ∈ los, Repeats P Sm 1 straw.last) ∧
      (settled → ∀ d, Repeats P Sm 1 d → ∃ straw ∈ los, straw.last = d) := by
    refine ⟨fun straw hstraw => .succ .zero ?_, fun hsettled d hd => ?_⟩
    · rw [sub_add_cancel]
      exact (hfinds.sound straw hstraw).2
    · cases hd with
      | succ before next =>
        cases before
        rw [sub_add_cancel] at next
        exact hfinds.complete hsettled d next
  dsimp only at h
  rcases h.of_ite with ⟨hempty, h⟩ | ⟨hfound, h⟩
  · have hnil : r.2 = [] := by
      rcases h.of_ite with ⟨-, h⟩ | ⟨-, h⟩ <;> rw [h.of_pure]
    refine ⟨fun _ => hnil, fun _ => ⟨fun i round hget => ?_, fun hsettled i d _ hd => ?_⟩⟩
    · rw [hnil] at hget
      cases hget
    · obtain ⟨d', hd'⟩ := hd.take
      obtain ⟨straw, hstraw, -⟩ := hone.2 hsettled d' hd'
      rw [List.isEmpty_iff.mp hempty] at hstraw
      cases hstraw
  · obtain ⟨hint, hhint, h⟩ := h.of_bind
    obtain ⟨hint', hhint', h⟩ := h.of_bind
    rcases h.of_ite with ⟨htwo, h⟩ | ⟨hless, h⟩
    · refine ⟨fun hlt => absurd htwo (not_le.mpr hlt), fun _ => ?_⟩
      obtain ⟨somIt, hmember, hne, hsuffix⟩ :=
        hs.isMemberOfHint_le (m := 0) hs.ne_nil (List.suffix_refl _) hs.last_nonneg
      cases hmember.symm.trans hhint.of_ofOption
      obtain ⟨somIt', hmember', hne', hsuffix'⟩ :=
        hs.isMemberOfHint_le (m := 1) hne hsuffix (by omega)
      cases hmember'.symm.trans hhint'.of_ofOption
      exact recorded_starLoopRounds hs hR _ 1 los somIt' _ r (by simpa using hfound) (by omega) hne'
        hsuffix' hone h
    · rw [h.of_pure]
      exact ⟨fun _ => rfl, fun htwo => absurd htwo hless⟩

end Rounds

end Emdros
