/-
# What a starred block string means

`R_block_string1` on `b * S` goes from one number of repetitions to the next.  It keeps the straws
of `n` repetitions, each joined into one, and appends a copy of them to the result if `n` is in `S`.
`StarDenotes` says what the result is in terms of sequences of straws, and `rStar_denotes` that it is
just that.

What `R_block_string0` returns may depend on the state of the evaluation, which every call changes.
So a level is built from whatever the calls have returned (`Extends`), one call for each sequence of
the level before it.
-/
import Emdros.MQL.Retrievable
import Emdros.Monads.Queries

namespace Emdros

open Partial SpanList

/-! ## 1. Sequences of straws -/

/-- Where the next repetition starts. -/
def nextMonad (Sm : Int) (ts : List Straw) : Int :=
  match ts.getLast? with
  | none => Sm
  | some t => t.last + 1

/-- The straws of a sequence, copied into one. -/
def Straw.concat (ts : List Straw) : Straw :=
  .mk ((ts.getLast?.map Straw.last).getD 0) (ts.flatMap fun t => t.list.map MatchedObject.copyMO)

/-- Each sequence is extended by each straw that `R` has returned at its end, in order. -/
inductive Extends {σ : Type} (R : Int → Eval σ (List Straw)) (Sm : Int) :
    List (List Straw) → List (List Straw) → Prop
  | nil : Extends R Sm [] []
  | cons {ts L L'} {los : List Straw} (returns : Returns (R (nextMonad Sm ts)) los)
      (rest : Extends R Sm L L') : Extends R Sm (ts :: L) (los.map (fun t => ts ++ [t]) ++ L')

instance (s : SetOfMonads) (m : Int) : Decidable (m ∈ s.mem) :=
  inferInstanceAs (Decidable (∃ e ∈ s.monadMs, e.firstM ≤ m ∧ m ≤ e.lastM))

/-- The numbers of repetitions after `n`, in order. -/
def repetitionsAfter (starSOM : SetOfMonads) (n : Nat) : List Nat :=
  (List.range' (n + 1) (starSOM.last.toNat - n)).filter fun i : Nat => (i : Int) ∈ starSOM.mem

/-- **The meaning of a star.**  `level n` has the sequences of `n` repetitions: one that is empty,
and then each extended by what was returned at its end.  The result has a straw with an `EMPTY_mo`
if 0 is among the numbers of repetitions, and for each other of them the sequences of its level. -/
def StarDenotes {σ : Type} (R : Int → Eval σ (List Straw)) (starSOM : SetOfMonads) (Sm : Int)
    (los : List Straw) : Prop :=
  ∃ level : Nat → List (List Straw), level 0 = [[]] ∧
    (∀ n : Nat, (n : Int) < starSOM.last → Extends R Sm (level n) (level (n + 1))) ∧
    los = (if 0 ∈ starSOM.mem then [Straw.new.append (MatchedObject.ofEmpty (Sm - 1))] else []) ++
      (repetitionsAfter starSOM 0).flatMap (fun n => (level n).map Straw.concat) ∧
    (los = [] ↔ 0 ∉ starSOM.mem ∧
      ∀ n : Nat, 1 ≤ n → (n : Int) ∈ starSOM.mem → level n = [])

/-! ## 2. The straws that the loop keeps -/

/-- A sequence as the loop keeps it: each straw has got those before it in front. -/
def joined : List Straw → Straw
  | [] => Straw.new
  | t :: ts => ts.foldl (fun front t => t.prepend front) t

theorem joined_append {ts : List Straw} (h : ts ≠ []) (t : Straw) :
    joined (ts ++ [t]) = t.prepend (joined ts) := by
  cases ts with
  | nil => exact absurd rfl h
  | cons t₀ ts => simp [joined]

@[simp] theorem prepend_last (s other : Straw) : (s.prepend other).last = s.last := rfl

theorem nextMonad_append (Sm : Int) (ts : List Straw) (t : Straw) :
    nextMonad Sm (ts ++ [t]) = t.last + 1 := by
  rw [nextMonad, List.getLast?_append]
  rfl

theorem copyMO_copyMO (mo : MatchedObject) : mo.copyMO.copyMO = mo.copyMO := by
  obtain ⟨idD, monads, obb, sheaf⟩ := mo
  simp only [MatchedObject.copyMO]
  split <;> rfl

/-- What the result gets for a sequence, and where the next repetition starts, by induction on the
straws from the last on. -/
theorem joined_spec (Sm : Int) : ∀ {ts : List Straw}, ts ≠ [] →
    (joined ts).copy = Straw.concat ts ∧ (joined ts).last + 1 = nextMonad Sm ts := by
  intro ts
  induction ts using List.reverseRecOn with
  | nil =>
    intro h
    exact absurd rfl h
  | append_singleton ts t ih =>
    intro _
    rcases List.eq_nil_or_concat ts with rfl | ⟨ts', t', rfl⟩
    · refine ⟨?_, rfl⟩
      simp [joined, Straw.copy, Straw.concat]
    · have hne : ts'.concat t' ≠ [] := by simp
      rw [joined_append hne, prepend_last, nextMonad_append]
      refine ⟨?_, rfl⟩
      have hcopy : (joined (ts'.concat t')).list.map MatchedObject.copyMO
          = (ts'.concat t').flatMap fun t => t.list.map MatchedObject.copyMO :=
        congrArg Straw.list (ih hne).1
      have htwice : ((joined (ts'.concat t')).list.map MatchedObject.copyMO).map
          MatchedObject.copyMO = (joined (ts'.concat t')).list.map MatchedObject.copyMO := by
        simp [copyMO_copyMO, Function.comp_def]
      rw [Straw.copy, Straw.prepend_list, List.map_append, htwice, hcopy, Straw.concat,
        List.flatMap_append, List.getLast?_append]
      simp

/-! ## 3. The hint iterator -/

/-- What the grammar and `SetOfMonads` promise of a star's set: it is not empty and has no negative
number, and `last()` is its greatest. -/
structure SetOfMonads.IsStarSet (s : SetOfMonads) : Prop where
  sep : Sep s.monadMs
  isGreatest : IsGreatest s.mem s.last
  nonneg : ∀ m ∈ s.mem, 0 ≤ m

/-- The hint iterator of a star's set. -/
theorem SetOfMonads.IsStarSet.isMemberOfHint_le {s : SetOfMonads} {m : Int}
    {hintIt : List MonadSetElement} (hs : s.IsStarSet) (hne : hintIt ≠ [])
    (hsuffix : hintIt <:+ s.monadMs) (hm : m ≤ s.last) :
    ∃ hintIt', s.isMemberOfHint m hintIt = some (decide (m ∈ s.mem), hintIt') ∧ hintIt' ≠ [] ∧
      hintIt' <:+ s.monadMs := by
  have hanswer : s.isMemberOf m = decide (m ∈ s.mem) := by
    rw [Bool.eq_iff_iff, decide_eq_true_iff]
    exact SetOfMonads.isMemberOfLoop_iff hs.sep
  rw [← hanswer]
  exact SetOfMonads.isMemberOfHint_le hs.sep hs.isGreatest hne hsuffix hm

/-! ## 4. The loop -/

section Loop

variable {σ : Type} {R : Int → Eval σ (List Straw)} {Sm : Int} {starSOM : SetOfMonads}

theorem Extends.ne_nil {L L' : List (List Straw)} (h : Extends R Sm L L') :
    ∀ ts ∈ L', ts ≠ [] := by
  induction h with
  | nil => intro ts hts; cases hts
  | cons returns rest ih =>
    intro ts hts
    rcases List.mem_append.mp hts with hts | hts
    · obtain ⟨t, -, rfl⟩ := List.mem_map.mp hts
      simp
    · exact ih ts hts

/-- What a call adds to the straws of the round: the sequence, extended by each straw. -/
theorem map_joined {ts : List Straw} (h : ts ≠ []) (los : List Straw) :
    (los.map fun t => ts ++ [t]).map joined = los.map fun t => t.prepend (joined ts) := by
  rw [List.map_map]
  exact List.map_congr_left fun t _ => joined_append h t

/-- A round goes to the next level, and goes on if that is not empty. -/
theorem starRound_spec {L : List (List Straw)} (hL : ∀ ts ∈ L, ts ≠ []) :
    Ensures (starRound R (L.map joined)) fun v => ∃ L', Extends R Sm L L' ∧
      v.1 = L'.map joined ∧ (v.2 = true ↔ L' ≠ []) := by
  -- the straws and the flag so far come first
  suffices h : ∀ v : List Straw × Bool,
      Ensures ((L.map joined).foldlM (fun (v : List Straw × Bool) straw => do
        let los3 ← R (straw.last + 1)
        if los3.isEmpty then pure v else pure (v.1 ++ ListOfStraws.join los3 straw, true)) v)
        fun w => ∃ L', Extends R Sm L L' ∧ w.1 = v.1 ++ L'.map joined ∧
          (w.2 = true ↔ v.2 = true ∨ L' ≠ []) by
    exact (h ([], false)).mono fun w ⟨L', hext, hw, hflag⟩ =>
      ⟨L', hext, by simpa using hw, by simpa using hflag⟩
  induction L with
  | nil =>
    intro v
    exact Ensures.pure ⟨[], .nil, by simp, by simp⟩
  | cons ts L ih =>
    intro v
    have hts : ts ≠ [] := hL ts List.mem_cons_self
    have ih := ih fun ts' hts' => hL ts' (List.mem_cons_of_mem ts hts')
    rw [List.map_cons, List.foldlM_cons, (joined_spec Sm hts).2, bind_assoc]
    refine (Ensures.returns (R (nextMonad Sm ts))).bind fun los hlos => ?_
    cases los with
    | nil =>
      rw [List.isEmpty_nil, if_pos rfl, pure_bind]
      exact (ih v).mono fun w ⟨L', hext, hw, hflag⟩ => ⟨L', .cons hlos hext, hw, hflag⟩
    | cons t los =>
      have hjoin : ListOfStraws.join (t :: los) (joined ts)
          = ((t :: los).map fun t => ts ++ [t]).map joined := (map_joined hts _).symm
      rw [List.isEmpty_cons, if_neg Bool.false_ne_true, pure_bind]
      refine (ih _).mono fun w ⟨L', hext, hw, hflag⟩ => ⟨_, .cons hlos hext, ?_, ?_⟩
      · rw [hw, hjoin, List.map_append, List.append_assoc]
      · simp [hflag]

/-- The next number of repetitions is in front of the others, if it is in the set. -/
theorem repetitionsAfter_of_lt {n : Nat} (hn : (n : Int) < starSOM.last) :
    repetitionsAfter starSOM n = (if ((n + 1 : Nat) : Int) ∈ starSOM.mem then [n + 1] else []) ++
      repetitionsAfter starSOM (n + 1) := by
  have hsub : starSOM.last.toNat - n = starSOM.last.toNat - (n + 1) + 1 := by omega
  rw [repetitionsAfter, repetitionsAfter, hsub, List.range'_succ, List.filter_cons]
  split <;> rename_i h
  · rw [if_pos (of_decide_eq_true h)]
    rfl
  · rw [if_neg (by simpa using h)]
    rfl

theorem repetitionsAfter_of_le {n : Nat} (hn : starSOM.last ≤ n) :
    repetitionsAfter starSOM n = [] := by
  have hsub : starSOM.last.toNat - n = 0 := by omega
  rw [repetitionsAfter, hsub]
  rfl

/-- The copies that the result gets are the sequences, each joined into one. -/
theorem appendACopy_joined {L : List (List Straw)} (hL : ∀ ts ∈ L, ts ≠ [])
    (resultLOS : List Straw) :
    ListOfStraws.appendACopy resultLOS (L.map joined) = resultLOS ++ L.map Straw.concat := by
  rw [ListOfStraws.appendACopy, List.map_map]
  congr 1
  exact List.map_congr_left fun ts hts => (joined_spec 0 (hL ts hts)).1

/-- The straws of the levels after `n`, which has the sequences `L`. -/
def LevelsFrom (R : Int → Eval σ (List Straw)) (Sm : Int) (starSOM : SetOfMonads) (n : Nat)
    (L : List (List Straw)) (los : List Straw) : Prop :=
  ∃ level : Nat → List (List Straw), level n = L ∧
    (∀ i : Nat, n ≤ i → (i : Int) < starSOM.last → Extends R Sm (level i) (level (i + 1))) ∧
    los = (repetitionsAfter starSOM n).flatMap fun i => (level i).map Straw.concat

namespace LevelsFrom

variable {n : Nat} {L L' : List (List Straw)} {los : List Straw}

/-- After the last member there is no level. -/
theorem of_le (hn : starSOM.last ≤ n) : LevelsFrom R Sm starSOM n L [] := by
  refine ⟨fun _ => L, rfl, ?_, ?_⟩
  · intro i hni hi
    omega
  · rw [repetitionsAfter_of_le hn]
    rfl

/-- The next level is in front of the others. -/
theorem step (hn : (n : Int) < starSOM.last) (hext : Extends R Sm L L')
    (rest : LevelsFrom R Sm starSOM (n + 1) L' los) :
    LevelsFrom R Sm starSOM n L
      ((if ((n + 1 : Nat) : Int) ∈ starSOM.mem then L'.map Straw.concat else []) ++ los) := by
  obtain ⟨level, hL', hlevel, hlos⟩ := rest
  have hlater : ∀ i, n < i → (if i = n then L else level i) = level i :=
    fun i hi => if_neg (by omega)
  refine ⟨fun i => if i = n then L else level i, if_pos rfl, ?_, ?_⟩
  · intro i hni hi
    dsimp only
    rw [hlater (i + 1) (by omega)]
    rcases eq_or_lt_of_le hni with rfl | hlt
    · rw [if_pos rfl, hL']
      exact hext
    · rw [hlater i hlt]
      exact hlevel i hlt hi
  · have hrest : (repetitionsAfter starSOM (n + 1)).flatMap (fun i => (if i = n then L else level i).map
        Straw.concat) = los := by
      rw [hlos]
      refine List.flatMap_congr fun i hi => ?_
      have := List.mem_range'_1.mp (List.mem_of_mem_filter hi)
      rw [hlater i (by omega)]
    rw [repetitionsAfter_of_lt hn, List.flatMap_append, hrest]
    congr 1
    split
    · rw [List.flatMap_singleton]
      dsimp only
      rw [hlater (n + 1) (by omega), hL']
    · rfl

/-- If no sequence can be extended, no later level has one. -/
theorem of_nil (hext : Extends R Sm L []) : LevelsFrom R Sm starSOM n L [] := by
  refine ⟨fun i => if i = n then L else [], if_pos rfl, ?_, ?_⟩
  · intro i hni hi
    dsimp only
    rw [if_neg (by omega : ¬ i + 1 = n)]
    split
    · exact hext
    · exact .nil
  · refine (List.flatMap_eq_nil_iff.mpr fun i hi => ?_).symm
    have := List.mem_range'_1.mp (List.mem_of_mem_filter hi)
    dsimp only
    rw [if_neg (by omega : ¬ i = n)]
    rfl

end LevelsFrom

/-- The loop adds the straws of the later levels.  It is at a level up to the last member, and the
iterator is in the set. -/
theorem starLoop_spec (hs : starSOM.IsStarSet) : ∀ (fuel n : Nat) (L : List (List Straw))
    (somIt : List MonadSetElement) (resultLOS : List Straw), (∀ ts ∈ L, ts ≠ []) →
    (n : Int) ≤ starSOM.last → somIt ≠ [] → somIt <:+ starSOM.monadMs →
    Ensures (starLoop starSOM R fuel (n + 1 : Nat) (L.map joined) somIt resultLOS) fun los =>
      ∃ added, los = resultLOS ++ added ∧ LevelsFrom R Sm starSOM n L added := by
  intro fuel
  induction fuel with
  | zero =>
    intro n L somIt resultLOS _ _ _ _
    exact Ensures.failure
  | succ fuel ih =>
    intro n L somIt resultLOS hL hn hne hsuffix
    rw [starLoop]
    refine (@starRound_spec σ R Sm L hL).bind fun v hround => ?_
    obtain ⟨L', hext, hlos, hflag⟩ := hround
    obtain ⟨los4, bContinue⟩ := v
    dsimp only at hlos hflag ⊢
    cases bContinue with
    | false =>
      have hL' : L' = [] := by simpa using hflag
      exact Ensures.pure ⟨[], (List.append_nil _).symm, .of_nil (hL' ▸ hext)⟩
    | true =>
      rw [if_pos rfl, hlos]
      rcases lt_or_ge (n : Int) starSOM.last with hlt | hge
      · -- the number may be in the set
        obtain ⟨somIt', hmember, hne', hsuffix'⟩ :=
          hs.isMemberOfHint_le (m := (n + 1 : Nat)) hne hsuffix (by omega)
        rw [hmember]
        refine Ensures.of_some ?_
        dsimp only
        rw [if_neg (by simpa using hne')]
        refine (ih (n + 1) L' somIt' _ hext.ne_nil (by omega) hne' hsuffix').mono ?_
        rintro los ⟨added, rfl, hadded⟩
        refine ⟨_, ?_, .step hlt hext hadded⟩
        rw [appendACopy_joined hext.ne_nil]
        by_cases hmem : ((n + 1 : Nat) : Int) ∈ starSOM.mem
        · rw [if_pos (decide_eq_true hmem), if_pos hmem, List.append_assoc]
        · rw [if_neg (by simpa using hmem), if_neg hmem, List.nil_append]
      · -- the iterator goes past the end
        rw [SetOfMonads.isMemberOfHint_gt (by omega)]
        refine Ensures.of_some ?_
        exact Ensures.pure ⟨[], by simp, .of_le hge⟩

/-- The fuel is enough for the loop to end. -/
theorem starLoop_total (hs : starSOM.IsStarSet) (hR : ∀ m, Total (R m)) : ∀ (fuel n : Nat)
    (los : List Straw) (somIt : List MonadSetElement) (resultLOS : List Straw),
    (n : Int) ≤ starSOM.last → starSOM.last < n + fuel → somIt ≠ [] →
    somIt <:+ starSOM.monadMs →
    Total (starLoop starSOM R fuel (n + 1 : Nat) los somIt resultLOS) := by
  intro fuel
  induction fuel with
  | zero =>
    intro n los somIt resultLOS hn hfuel
    omega
  | succ fuel ih =>
    intro n los somIt resultLOS hn hfuel hne hsuffix
    rw [starLoop]
    refine Total.bind (Total.foldlM (fun v straw => ?_) los _) fun v _ => ?_
    · refine (hR _).bind fun los3 _ => ?_
      split
      · exact Total.pure v
      · exact Total.pure _
    · obtain ⟨los4, bContinue⟩ := v
      dsimp only
      cases bContinue with
      | false => exact Total.pure resultLOS
      | true =>
        rw [if_pos rfl]
        rcases lt_or_ge (n : Int) starSOM.last with hlt | hge
        · obtain ⟨somIt', hmember, hne', hsuffix'⟩ :=
            hs.isMemberOfHint_le (m := (n + 1 : Nat)) hne hsuffix (by omega)
          rw [hmember]
          refine Total.of_some ?_
          dsimp only
          rw [if_neg (by simpa using hne')]
          exact ih (n + 1) los4 somIt' _ (by omega) (by omega) hne' hsuffix'
        · rw [SetOfMonads.isMemberOfHint_gt (by omega)]
          exact Total.of_some (Total.pure _)

end Loop

/-! ## 5. The star -/

section Star

variable {σ : Type} {R : Int → Eval σ (List Straw)} {Sm : Int} {starSOM : SetOfMonads}

theorem SetOfMonads.IsStarSet.ne_nil (hs : starSOM.IsStarSet) : starSOM.monadMs ≠ [] := by
  intro hnil
  obtain ⟨e, he, -⟩ := hs.isGreatest.1
  rw [hnil] at he
  cases he

theorem SetOfMonads.IsStarSet.last_nonneg (hs : starSOM.IsStarSet) : 0 ≤ starSOM.last :=
  hs.nonneg starSOM.last hs.isGreatest.1

/-- The members of the set, apart from 0, are the numbers of repetitions after 0. -/
theorem mem_repetitionsAfter_zero (hs : starSOM.IsStarSet) {n : Nat} :
    n ∈ repetitionsAfter starSOM 0 ↔ 1 ≤ n ∧ (n : Int) ∈ starSOM.mem := by
  rw [repetitionsAfter, List.mem_filter, List.mem_range'_1, decide_eq_true_eq]
  constructor
  · rintro ⟨⟨hn, -⟩, hmem⟩
    exact ⟨by omega, hmem⟩
  · rintro ⟨hn, hmem⟩
    have := hs.isGreatest.2 hmem
    exact ⟨⟨by omega, by omega⟩, hmem⟩

/-- The straw of no repetitions, and those of the levels after 0. -/
theorem StarDenotes.of_levels (hs : starSOM.IsStarSet) {added : List Straw}
    (h : LevelsFrom R Sm starSOM 0 [[]] added) :
    StarDenotes R starSOM Sm ((if 0 ∈ starSOM.mem then
      [Straw.new.append (MatchedObject.ofEmpty (Sm - 1))] else []) ++ added) := by
  obtain ⟨level, hzero, hlevel, hadded⟩ := h
  refine ⟨level, hzero, fun n hn => hlevel n (Nat.zero_le n) hn, by rw [hadded], ?_⟩
  have hnil : added = [] ↔ ∀ n : Nat, 1 ≤ n → (n : Int) ∈ starSOM.mem → level n = [] := by
    rw [hadded, List.flatMap_eq_nil_iff]
    constructor
    · intro h n hn hmem
      exact List.map_eq_nil_iff.mp (h n ((mem_repetitionsAfter_zero hs).mpr ⟨hn, hmem⟩))
    · intro h n hn
      obtain ⟨hn, hmem⟩ := (mem_repetitionsAfter_zero hs).mp hn
      rw [h n hn hmem, List.map_nil]
  rw [List.append_eq_nil_iff, hnil]
  refine and_congr ?_ Iff.rfl
  by_cases hmem : 0 ∈ starSOM.mem
  · simp [hmem]
  · simp [hmem]

/-- The first level has a sequence for each straw of the first call. -/
theorem extends_one {los : List Straw} (h : Returns (R Sm) los) :
    Extends R Sm [[]] (los.map fun t => [t]) := by
  have hcons : Extends R Sm ([] :: []) ((los.map fun t => [] ++ [t]) ++ []) := Extends.cons h .nil
  simpa using hcons

theorem map_singleton_joined (los : List Straw) : (los.map fun t => [t]).map joined = los := by
  rw [List.map_map]
  exact List.map_id los

/-- The straws of one repetition and of more. -/
theorem levels_after_one (hs : starSOM.IsStarSet) {los : List Straw} (hlos : Returns (R Sm) los)
    (somIt : List MonadSetElement) (hone : 1 ≤ starSOM.last) (hne : somIt ≠ [])
    (hsuffix : somIt <:+ starSOM.monadMs) (zero : List Straw) :
    Ensures (if starSOM.last ≥ 2 then
        starLoop starSOM R starSOM.last.toNat 2 los somIt
          (if decide (1 ∈ starSOM.mem) then ListOfStraws.appendACopy zero los else zero)
      else pure (if decide (1 ∈ starSOM.mem) then ListOfStraws.appendACopy zero los else zero))
      fun r => ∃ added, r = zero ++ added ∧ LevelsFrom R Sm starSOM 0 [[]] added := by
  have hext := extends_one hlos
  have hacc : (if decide (1 ∈ starSOM.mem) then ListOfStraws.appendACopy zero los else zero)
      = zero ++ if ((0 + 1 : Nat) : Int) ∈ starSOM.mem
        then (los.map fun t => [t]).map Straw.concat else [] := by
    have hcopy := appendACopy_joined hext.ne_nil zero
    rw [map_singleton_joined] at hcopy
    rw [hcopy, show ((0 + 1 : Nat) : Int) = 1 from rfl]
    by_cases hmem : (1 : Int) ∈ starSOM.mem
    · rw [if_pos (decide_eq_true hmem), if_pos hmem]
    · rw [if_neg (by simpa using hmem), if_neg hmem, List.append_nil]
  refine Ensures.ite (fun _ => ?_) fun hlast => ?_
  · have hloop := @starLoop_spec σ R Sm starSOM hs starSOM.last.toNat 1
      (los.map fun t => [t]) somIt
      (if decide (1 ∈ starSOM.mem) then ListOfStraws.appendACopy zero los else zero)
      hext.ne_nil hone hne hsuffix
    rw [map_singleton_joined] at hloop
    refine hloop.mono ?_
    rintro r ⟨added, rfl, hadded⟩
    exact ⟨_, by rw [hacc, List.append_assoc], .step (by omega) hext hadded⟩
  · refine Ensures.pure ⟨_, hacc, ?_⟩
    have hend : LevelsFrom R Sm starSOM (0 + 1) (los.map fun t => [t]) [] :=
      .of_le (by omega)
    simpa using LevelsFrom.step (by omega) hext hend

/-- What `rStar` returns is the meaning of the star. -/
theorem rStar_denotes (hs : starSOM.IsStarSet) :
    Ensures (rStar starSOM Sm R) (StarDenotes R starSOM Sm) := by
  rw [rStar]
  refine (Ensures.returns (R Sm)).bind fun los hlos => ?_
  dsimp only
  cases los with
  | nil =>
    rw [List.isEmpty_nil, if_pos rfl]
    have hdenotes := StarDenotes.of_levels hs (.of_nil (extends_one hlos))
    rw [List.append_nil] at hdenotes
    have hmember : starSOM.isMemberOf 0 = true ↔ 0 ∈ starSOM.mem :=
      SetOfMonads.isMemberOfLoop_iff hs.sep
    by_cases hmem : 0 ∈ starSOM.mem
    · rw [if_pos (hmember.mpr hmem)]
      rw [if_pos hmem] at hdenotes
      exact Ensures.pure hdenotes
    · rw [if_neg (mt hmember.mp hmem)]
      rw [if_neg hmem] at hdenotes
      exact Ensures.pure hdenotes
  | cons t los =>
    rw [List.isEmpty_cons, if_neg Bool.false_ne_true]
    obtain ⟨somIt, hzero, hne, hsuffix⟩ :=
      hs.isMemberOfHint_le (m := 0) hs.ne_nil (List.suffix_refl _) hs.last_nonneg
    rw [hzero]
    refine Ensures.of_some ?_
    dsimp only
    simp only [decide_eq_true_eq]
    rcases lt_or_ge starSOM.last 1 with hlast | hone
    · -- the iterator is already at the end, and 0 is the only number
      rw [SetOfMonads.isMemberOfHint_gt hlast]
      refine Ensures.of_some ?_
      dsimp only
      rw [if_neg Bool.false_ne_true, if_neg (by omega)]
      have hdenotes := @StarDenotes.of_levels σ R Sm starSOM hs _ (.of_le (by omega))
      rw [List.append_nil] at hdenotes
      exact Ensures.pure hdenotes
    · obtain ⟨somIt', hmember, hne', hsuffix'⟩ := hs.isMemberOfHint_le hne hsuffix hone
      rw [hmember]
      refine Ensures.of_some ?_
      dsimp only
      refine (levels_after_one hs hlos somIt' hone hne' hsuffix' _).mono ?_
      rintro r ⟨added, rfl, hadded⟩
      exact .of_levels hs hadded

/-- The star returns something if the block string does. -/
theorem rStar_total (hs : starSOM.IsStarSet) (hR : ∀ m, Total (R m)) :
    Total (rStar starSOM Sm R) := by
  rw [rStar]
  refine (hR Sm).bind fun los _ => ?_
  dsimp only
  cases los with
  | nil =>
    rw [List.isEmpty_nil, if_pos rfl]
    split
    · exact Total.pure _
    · exact Total.pure _
  | cons t los =>
    rw [List.isEmpty_cons, if_neg Bool.false_ne_true]
    obtain ⟨somIt, hzero, hne, hsuffix⟩ :=
      hs.isMemberOfHint_le (m := 0) hs.ne_nil (List.suffix_refl _) hs.last_nonneg
    rw [hzero]
    refine Total.of_some ?_
    dsimp only
    rcases lt_or_ge starSOM.last 1 with hlast | hone
    · rw [SetOfMonads.isMemberOfHint_gt hlast]
      refine Total.of_some ?_
      dsimp only
      rw [if_neg (by omega)]
      exact Total.pure _
    · obtain ⟨somIt', hmember, hne', hsuffix'⟩ := hs.isMemberOfHint_le hne hsuffix hone
      rw [hmember]
      refine Total.of_some ?_
      dsimp only
      split
      · exact starLoop_total hs hR starSOM.last.toNat 1 _ somIt' _ hone (by omega) hne' hsuffix'
      · exact Total.pure _

/-- **`R_block_string1` on `b * S`** returns the straws of the star's meaning, and fails only where
`R_block_string0` on `b` does. -/
theorem rBlockString1_star {C S : Type} (env : QueryEnv C S σ)
    (rGroup : ObjectBlockString C → Option (MQLResultCallback σ) → Bool →
      List (List Straw) → Eval σ Sheaf)
    (b : BlockString0 C) (starSOM U Su : SetOfMonads) (Sm maxRange : Int)
    (hs : starSOM.IsStarSet) :
    Ensures (Evaluator.rBlockString1 env rGroup (.star b starSOM) U Su Sm maxRange)
      (StarDenotes (fun m => Evaluator.rBlockString0 env rGroup b U Su m maxRange) starSOM Sm) ∧
    ((∀ m, Total (Evaluator.rBlockString0 env rGroup b U Su m maxRange)) →
      Total (Evaluator.rBlockString1 env rGroup (.star b starSOM) U Su Sm maxRange)) := by
  rw [Evaluator.rBlockString1]
  exact ⟨rStar_denotes hs, rStar_total hs⟩

end Star

section Words

/-- An object of one monad. -/
def wordAt (idD : Nat) (m : Int) : MonadedObject where
  idD := idD
  first := m
  last := m
  monads := SetOfMonads.empty.addMonad m
  idD_nonneg := Int.natCast_nonneg idD

/-- `[word]`, where the words are at the monads 1 and 2. -/
def wordBlock : BlockString0 Unit :=
  .block (.objectBlock (.mk
    { obb := ⟨1, .kRetrieve⟩
      firstLast := .kNoFirstLast
      msrc := ⟨.kMSROStartsIn, .kMSNSubstrate⟩
      featureConstraints := none
      hasNonParentORUs := false
      isAfterNonNOTEXISTInBlockString := false
      inst := [wordAt 7 1, wordAt 8 2] } .null))

/-- No object references. -/
def wordEnv : QueryEnv Unit Unit Unit where
  getSMIBlockString := fun _ _ _ _ => failure
  getSMIBlockString1 := fun _ _ _ _ => failure
  getSMIObjectBlock := fun _ _ _ _ _ => failure
  setORUStraw := fun _ _ s => s
  retrieveFeatureValues := fun _ _ s => s
  solutions := fun _ _ => []
  compare := fun _ _ _ _ => true

/-- `{ 0-2 }`. -/
def upToTwo : SetOfMonads := ⟨[⟨0, 2, by decide⟩], 0, 2⟩

theorem upToTwo_isStarSet : upToTwo.IsStarSet where
  sep := SpanList.sep_singleton _
  isGreatest := by
    have h := SpanList.Sep.isGreatest_last (L := []) (SpanList.sep_singleton
      (⟨0, 2, by decide⟩ : MonadSetElement))
    exact h
  nonneg := by
    rintro m ⟨e, he, hm, -⟩
    rw [List.mem_singleton.mp he] at hm
    exact hm

theorem one_le_two_monads : (1 : Int) ≤ 2 := by decide

/-- The monads of the words. -/
def wordMonads : SetOfMonads := SetOfMonads.empty.addMSE ⟨1, 2, one_le_two_monads⟩

/-- `[word]* { 0-2 }` at 1: nothing, one word and both words. -/
theorem rBlockString1_star_words :
    ∃ los, (Evaluator.rBlockString1 wordEnv (fun _ => rBlocksOfUnorderedGroup)
        (.star wordBlock upToTwo) wordMonads wordMonads 1 maxMonad).run () = some (los, ()) ∧
      los.map (fun t => t.list.map MatchedObject.idD) = [[-1], [7], [7, 8]] ∧
      StarDenotes (fun m => Evaluator.rBlockString0 wordEnv (fun _ => rBlocksOfUnorderedGroup)
        wordBlock wordMonads wordMonads m maxMonad) upToTwo 1 los := by
  refine ⟨_, rfl, rfl, ?_⟩
  have hstar := rBlockString1_star wordEnv (fun _ => rBlocksOfUnorderedGroup) wordBlock upToTwo
    wordMonads wordMonads 1 maxMonad upToTwo_isStarSet
  exact hstar.1 () trivial _ () rfl

end Words

end Emdros
