/-
# Stars that make no progress

The loop of the Kleene star tries the block string right behind each partial match.  What it finds
there is mostly longer, but not always: an optional gap that is not there, a `NOTEXIST` block and a
star with 0 in its set give a placeholder that ends right before the monad where the block was
tried.  If all of the string can be skipped in this way (`EmptyAt`), the match stays where it is,
and the loop goes on with it until the star's set is at its end.

Which repetitions there are is known from the blocks and the data (`Repeats`, `Spans`), so the
condition is on them and not on a run: a star `Stalls` if the end of one of its repetitions is
followed by a match that does not go beyond it.  The partial matches of every further round get
longer if it does not, and if the blocks are settled exactly then
(`rBlockString1_star_progress_iff`).  Where no block looks back behind a power block, stalling means
that the string can be skipped at the end of a repetition, and a star that does not stall keeps to
the number of rounds that the substrate allows if it is not tried behind the substrate.
-/
import Emdros.MQL.LookingBack

namespace Emdros

open Partial

/-! ## 1. Repetitions and rounds -/

section Rounds

variable {σ : Type} {P : Int → Int → Prop} {empty : Int → Prop} {settled : Prop}
  {R : Int → Eval σ (List Straw)} {starSOM : SetOfMonads} {Sm B : Int}

/-- A repetition behind which the loop looks for another one. -/
def Tried (P : Int → Int → Prop) (starSOM : SetOfMonads) (Sm d : Int) : Prop :=
  2 ≤ starSOM.last ∧ ∃ n : Nat, 1 ≤ n ∧ (n : Int) ≤ starSOM.last ∧ Repeats P Sm n d

/-- Such a repetition is followed by a match that does not go beyond it. -/
def Stalls (P : Int → Int → Prop) (starSOM : SetOfMonads) (Sm : Int) : Prop :=
  ∃ d, Tried P starSOM Sm d ∧ ∃ last, P (d + 1) last ∧ last ≤ d

/-- There are more than `k` repetitions, one behind the other, and the star's set asks for more. -/
def Overruns (P : Int → Int → Prop) (starSOM : SetOfMonads) (Sm : Int) (k : Nat) : Prop :=
  2 ≤ starSOM.last ∧ ((k + 1 : Nat) : Int) ≤ starSOM.last ∧ ∃ d, Repeats P Sm (k + 1) d

theorem RoundsRecorded.greater {rounds : List Round}
    (h : RoundsRecorded P settled R starSOM Sm 1 rounds)
    (hR : ∀ m los, Returns (R m) los → Finds (P m) settled los) (htwo : 2 ≤ starSOM.last)
    (hstalls : ¬ Stalls P starSOM Sm) : Greater rounds := by
  intro round hround behind hbehind straw hstraw
  obtain ⟨i, hget⟩ := List.mem_iff_getElem?.mp hround
  obtain ⟨-, hle, hof⟩ := h.sound i round hget
  obtain ⟨hrepeats, hreturns⟩ := hof behind hbehind
  obtain ⟨found, hfound, rfl⟩ := mem_keptBehind.mp hstraw
  by_contra hlt
  exact hstalls ⟨behind.1.last, ⟨htwo, 1 + i, Nat.le_add_right 1 i, hle, hrepeats⟩, found.last,
    ((hR _ _ hreturns).sound found hfound).2, not_lt.mp hlt⟩

theorem RoundsRecorded.not_stalls {rounds : List Round}
    (h : RoundsRecorded P settled R starSOM Sm 1 rounds)
    (hR : ∀ m los, Returns (R m) los → Finds (P m) settled los) (hsettled : settled)
    (hgreater : Greater rounds) : ¬ Stalls P starSOM Sm := by
  rintro ⟨d, ⟨-, n, hone, hle, hrepeats⟩, last, hlast, hshort⟩
  obtain ⟨i, rfl⟩ := Nat.exists_eq_add_of_le hone
  obtain ⟨round, hget, behind, hbehind, rfl⟩ := h.complete hsettled i d hle hrepeats
  obtain ⟨-, -, hof⟩ := h.sound i round hget
  obtain ⟨found, hfound, rfl⟩ :=
    (hR _ _ (hof behind hbehind).2).complete hsettled last hlast
  have := hgreater round (List.mem_of_getElem? hget) behind hbehind (found.prepend behind.1)
    (mem_keptBehind.mpr ⟨found, hfound, rfl⟩)
  exact not_lt.mpr hshort this

/-- There is a further round for each repetition that is followed by another one. -/
theorem RoundsRecorded.overruns {rounds : List Round} {k : Nat}
    (h : RoundsRecorded P settled R starSOM Sm 1 rounds) (htwo : 2 ≤ starSOM.last)
    (hk : k < rounds.length) : Overruns P starSOM Sm k := by
  obtain ⟨hne, hle, hof⟩ := h.sound k rounds[k] (List.getElem?_eq_getElem hk)
  obtain ⟨behind, hbehind⟩ := List.exists_mem_of_ne_nil _ hne
  rw [Nat.add_comm] at hle hof
  exact ⟨htwo, hle, _, (hof behind hbehind).1⟩

theorem RoundsRecorded.lt_length {rounds : List Round} {k : Nat}
    (h : RoundsRecorded P settled R starSOM Sm 1 rounds) (hsettled : settled)
    (hover : Overruns P starSOM Sm k) : k < rounds.length := by
  obtain ⟨-, hle, d, hrepeats⟩ := hover
  rw [Nat.add_comm] at hle hrepeats
  obtain ⟨round, hget, -⟩ := h.complete hsettled k d hle hrepeats
  exact (List.getElem?_eq_some_iff.mp hget).1

/-- What can be found at a monad where nothing looks back: no match ends before it, one that goes
beyond it is in the substrate, and one that does not has been skipped. -/
structure Onward (B : Int) (P : Int → Prop) (empty : Prop) (m : Int) : Prop where
  nonneg : ∀ last, P last → 0 ≤ last
  sub_one_le : ∀ last, P last → m - 1 ≤ last
  within : ∀ last, P last → m ≤ last → m ≤ B
  skipped : 1 ≤ m → (P (m - 1) ↔ empty)

theorem Onward.congr {P' : Int → Prop} {empty' : Prop} {P : Int → Prop} {empty : Prop} {m : Int}
    (h : Onward B P empty m) (hP : ∀ last, P last ↔ P' last) (hempty : empty ↔ empty') :
    Onward B P' empty' m :=
  ⟨fun last hlast => h.nonneg last ((hP last).mpr hlast),
    fun last hlast => h.sub_one_le last ((hP last).mpr hlast),
    fun last hlast => h.within last ((hP last).mpr hlast),
    fun hm => (hP _).symm.trans ((h.skipped hm).trans hempty)⟩

theorem Onward.or {P' : Int → Prop} {empty' : Prop} {P : Int → Prop} {empty : Prop} {m : Int}
    (h : Onward B P empty m) (h' : Onward B P' empty' m) :
    Onward B (fun last => P last ∨ P' last) (empty ∨ empty') m :=
  ⟨fun last => Or.rec (h.nonneg last) (h'.nonneg last),
    fun last => Or.rec (h.sub_one_le last) (h'.sub_one_le last),
    fun last => Or.rec (h.within last) (h'.within last),
    fun hm => or_congr (h.skipped hm) (h'.skipped hm)⟩

/-- Something is matched, and something else from a later monad on. -/
theorem Onward.then {P : Int → Prop} {T Q : Int → Int → Prop} {empty : Prop} {empty' : Int → Prop}
    {m : Int} (h : Onward B P empty m) (hlater : ∀ d s, T d s → d + 1 ≤ s)
    (hwithin : ∀ d s, T d s → d + 1 < s → d + 1 ≤ B) (hrest : ∀ s, Onward B (Q s) (empty' s) s) :
    Onward B (fun last => ∃ d, P d ∧ ∃ s, T d s ∧ Q s last) (empty ∧ T (m - 1) m ∧ empty' m) m := by
  refine ⟨?_, ?_, ?_, fun hm => ⟨?_, ?_⟩⟩
  · rintro last ⟨d, -, s, -, hlast⟩
    exact (hrest s).nonneg last hlast
  · rintro last ⟨d, hd, s, hs, hlast⟩
    have := h.sub_one_le d hd
    have := hlater d s hs
    have := (hrest s).sub_one_le last hlast
    omega
  · rintro last ⟨d, hd, s, hs, hlast⟩ hle
    have hd' := h.sub_one_le d hd
    have hs' := hlater d s hs
    by_cases hin : m ≤ d
    · exact h.within d hd hin
    · -- the first part has been skipped
      obtain rfl : m = d + 1 := by omega
      by_cases heq : s = d + 1
      · exact heq ▸ (hrest s).within last hlast (heq ▸ hle)
      · exact hwithin d s hs (by omega)
  · rintro ⟨d, hd, s, hs, hlast⟩
    have hd' := h.sub_one_le d hd
    have hs' := hlater d s hs
    have hlast' := (hrest s).sub_one_le _ hlast
    obtain rfl : s = m := by omega
    obtain rfl : d = s - 1 := by omega
    exact ⟨(h.skipped hm).mp hd, hs, ((hrest s).skipped hm).mp hlast⟩
  · rintro ⟨hempty, hs, hempty'⟩
    exact ⟨m - 1, (h.skipped hm).mpr hempty, m, hs, ((hrest m).skipped hm).mpr hempty'⟩

/-- A placeholder. -/
theorem onward_skipped (hB : 0 ≤ B) (c : Prop) (m : Int) :
    Onward B (fun last => c ∧ last = (Straw.skipped m).last) c m := by
  rw [Straw.skipped_last]
  refine ⟨?_, ?_, ?_, fun hm => and_iff_left (by omega)⟩
  · rintro last ⟨-, rfl⟩
    exact le_max_right _ _
  · rintro last ⟨-, rfl⟩
    exact le_max_left _ _
  · rintro last ⟨-, rfl⟩ hle
    omega

theorem Repeats.onward (hP : ∀ m, Onward B (P m) (empty m) m) {m d : Int} {n : Nat}
    (h : Repeats P m n d) : m - 1 ≤ d ∧ (m ≤ d → m ≤ B) := by
  induction h with
  | zero => exact ⟨le_rfl, fun h => absurd h (by omega)⟩
  | @succ n d last before next ih =>
    have hlast := (hP _).sub_one_le last next
    refine ⟨by omega, fun hle => ?_⟩
    by_cases hin : m ≤ d
    · exact ih.2 hin
    · obtain rfl : m = d + 1 := by omega
      exact (hP _).within last next hle

theorem Repeats.nonneg (hP : ∀ m, Onward B (P m) (empty m) m) {m d : Int} {n : Nat}
    (hn : 1 ≤ n) (h : Repeats P m n d) : 0 ≤ d := by
  cases h with
  | zero => exact absurd hn (by decide)
  | succ before next => exact (hP _).nonneg d next

theorem repeats_skipped {m : Int} (h : P m (m - 1)) (n : Nat) : Repeats P m n (m - 1) := by
  induction n with
  | zero => exact .zero
  | succ n ih => exact .succ ih (by rwa [sub_add_cancel])

/-- A star can be skipped if 0 is in its set, or as often as it asks for what is under it. -/
theorem Onward.star (hP : ∀ m, Onward B (P m) (empty m) m) (hB : 0 ≤ B) (hs : starSOM.IsStarSet)
    (m : Int) : Onward B (fun last => 0 ∈ starSOM.mem ∧ last = (Straw.skipped m).last ∨
      ∃ n : Nat, 1 ≤ n ∧ (n : Int) ∈ starSOM.mem ∧ Repeats P m n last)
      (0 ∈ starSOM.mem ∨ empty m) m := by
  have hskipped := onward_skipped hB (0 ∈ starSOM.mem) m
  refine ⟨?_, ?_, ?_, fun hm => ⟨?_, ?_⟩⟩
  · rintro last (hlast | ⟨n, hn, -, hrepeats⟩)
    · exact hskipped.nonneg last hlast
    · exact hrepeats.nonneg hP hn
  · rintro last (hlast | ⟨n, hn, -, hrepeats⟩)
    · exact hskipped.sub_one_le last hlast
    · exact (hrepeats.onward hP).1
  · rintro last (hlast | ⟨n, hn, -, hrepeats⟩)
    · exact hskipped.within last hlast
    · exact (hrepeats.onward hP).2
  · rintro (⟨hzero, -⟩ | ⟨n, hn, -, hrepeats⟩)
    · exact Or.inl hzero
    · refine Or.inr (((hP m).skipped hm).mp ?_)
      obtain ⟨n, rfl⟩ := Nat.exists_eq_add_of_le' hn
      cases hrepeats with
      | @succ _ d _ before next =>
        -- none of the repetitions goes beyond the monad
        have hbefore := (before.onward hP).1
        have hnext := (hP _).sub_one_le _ next
        obtain rfl : d = m - 1 := by omega
        rwa [sub_add_cancel] at next
  · rintro (hzero | hempty)
    · exact Or.inl ((hskipped.skipped hm).mpr hzero)
    · by_cases hzero : 0 ∈ starSOM.mem
      · exact Or.inl ((hskipped.skipped hm).mpr hzero)
      · have hnonneg := hs.last_nonneg
        have hne : starSOM.last ≠ 0 := fun h => hzero (h ▸ hs.isGreatest.1)
        refine Or.inr ⟨starSOM.last.toNat, by omega, ?_,
          repeats_skipped (((hP m).skipped hm).mpr hempty) _⟩
        rw [Int.toNat_of_nonneg hnonneg]
        exact hs.isGreatest.1

/-- Where nothing looks back, a star stalls if all of the string is skipped behind a repetition. -/
theorem stalls_iff (hP : ∀ m, Onward B (P m) (empty m) m) :
    Stalls P starSOM Sm ↔ ∃ d, Tried P starSOM Sm d ∧ empty (d + 1) := by
  refine exists_congr fun d => and_congr_right ?_
  rintro ⟨-, n, hn, -, hrepeats⟩
  have hd := hrepeats.nonneg hP hn
  have hskipped := (hP (d + 1)).skipped (by omega)
  rw [add_sub_cancel_right] at hskipped
  rw [← hskipped]
  constructor
  · rintro ⟨last, hlast, hle⟩
    have hge := (hP (d + 1)).sub_one_le last hlast
    obtain rfl : last = d := by omega
    exact hlast
  · exact fun hlast => ⟨d, hlast, le_rfl⟩

/-- As long as it does not stall, every repetition goes beyond the one before. -/
theorem Repeats.grows (hP : ∀ m, Onward B (P m) (empty m) m) (hstalls : ¬ Stalls P starSOM Sm)
    (htwo : 2 ≤ starSOM.last) {n : Nat} {d : Int} (h : Repeats P Sm (n + 1) d)
    (hn : (n : Int) ≤ starSOM.last) : Sm - 1 + n ≤ d ∧ (1 ≤ n → Sm + n - 1 ≤ B) := by
  induction n generalizing d with
  | zero =>
    have := (h.onward hP).1
    exact ⟨by omega, fun h => absurd h (by decide)⟩
  | succ n ih =>
    cases h with
    | @succ _ d' _ before next =>
      obtain ⟨hd', -⟩ := ih before (by omega)
      have hlast : d' < d := by
        by_contra hle
        exact hstalls ⟨d', ⟨htwo, n + 1, Nat.le_add_left 1 n, hn, before⟩, d, next, not_lt.mp hle⟩
      have hin := (hP _).within d next (by omega)
      exact ⟨by omega, fun _ => by omega⟩

/-- So the substrate bounds the repetitions. -/
theorem lt_of_overruns (hP : ∀ m, Onward B (P m) (empty m) m) (hstalls : ¬ Stalls P starSOM Sm)
    (hover : Overruns P starSOM Sm (B - Sm + 2).toNat) : B + 1 < Sm := by
  by_contra hle
  obtain ⟨htwo, hcount, d, hrepeats⟩ := hover
  have hwithin := (hrepeats.grows hP hstalls htwo (by omega)).2 (by omega)
  omega

end Rounds

/-! ## 2. Strings that can be skipped -/

section EmptyAt

variable {C S σ : Type} (env : QueryEnv C S σ)
  (rGroup : ObjectBlockString C → Option (MQLResultCallback σ) → Bool →
    List (List Straw) → Eval σ Sheaf)
  (e : StartMonadEnv) (U Su : SetOfMonads) (maxRange : Int)

/-- The block gives a placeholder at the monad. -/
def Block.EmptyAt : Block C → Int → Prop
  | .gapBlock _, _ => False
  | .optGapBlock _, m => Su.gapExists m = some none
  | .powerBlock _, _ => False
  | .objectBlock _, _ => False
  | .objectBlockNOTEXIST b, m => b.NothingThere env rGroup e U Su m

mutual

/-- All of the string is skipped at the monad, in one of its alternatives. -/
def BlockString0.EmptyAt : BlockString0 C → Int → Prop
  | .block b, m => b.EmptyAt env rGroup e U Su m
  | .blockString b, m => b.EmptyAt m

def BlockString1.EmptyAt : BlockString1 C → Int → Prop
  | .nonStar b, m => b.EmptyAt m
  | .star b starSOM, m => 0 ∈ starSOM.mem ∨ b.EmptyAt m

def BlockString2.EmptyAt : BlockString2 C → Int → Prop
  | .blockString1 _ b, m => b.EmptyAt m
  | .sequence _ b (.blockString1 node next), m =>
    next.getPowerBlock = none ∧ b.EmptyAt m ∧ (BlockString2.blockString1 node next).EmptyAt m
  | .sequence _ b (.sequence node next nextButOne), m =>
    b.EmptyAt m ∧
      match next.getPowerBlock with
      | some power => nextButOne.StartsBehind e U Su maxRange power (m - 1) m ∧ nextButOne.EmptyAt m
      | none => (BlockString2.sequence node next nextButOne).EmptyAt m

def BlockString.EmptyAt : BlockString C → Int → Prop
  | .blockString2 b, m => b.EmptyAt m
  | .or b rest, m => b.EmptyAt m ∨ rest.EmptyAt m

end

variable {env rGroup e U Su maxRange}

mutual

/-- A string with an object block or a gap block outside its stars is not skipped. -/
theorem BlockString0.Consumes.not_emptyAt : ∀ {b : BlockString0 C}, b.Consumes →
    ∀ m, ¬ b.EmptyAt env rGroup e U Su maxRange m
  | .block (.gapBlock _), _, _ => id
  | .block (.objectBlock _), _, _ => id
  | .blockString _, hb, m => BlockString.Consumes.not_emptyAt hb m

theorem BlockString1.Consumes.not_emptyAt : ∀ {b : BlockString1 C}, b.Consumes →
    ∀ m, ¬ b.EmptyAt env rGroup e U Su maxRange m
  | .nonStar _, hb, m => BlockString0.Consumes.not_emptyAt hb m

theorem BlockString2.Consumes.not_emptyAt : ∀ {b : BlockString2 C}, b.Consumes →
    ∀ m, ¬ b.EmptyAt env rGroup e U Su maxRange m
  | .blockString1 _ _, hb, m => BlockString1.Consumes.not_emptyAt hb m
  | .sequence _ b (.blockString1 node next), hb, m => fun hempty => by
    rcases hb with hb | hb
    · exact BlockString1.Consumes.not_emptyAt hb m hempty.2.1
    · exact BlockString2.Consumes.not_emptyAt (b := .blockString1 node next) hb m hempty.2.2
  | .sequence _ b (.sequence node next nextButOne), hb, m => fun hempty => by
    rw [BlockString2.EmptyAt] at hempty
    rcases hb with hb | hb
    · exact BlockString1.Consumes.not_emptyAt hb m hempty.1
    · cases hpower : next.getPowerBlock with
      | some power =>
        rw [hpower] at hempty
        have hnext : nextButOne.Consumes := hb.resolve_left (BlockString1.of_getPowerBlock hpower).2
        exact BlockString2.Consumes.not_emptyAt hnext m hempty.2.2
      | none =>
        rw [hpower] at hempty
        exact BlockString2.Consumes.not_emptyAt (b := .sequence node next nextButOne) hb m hempty.2

theorem BlockString.Consumes.not_emptyAt : ∀ {b : BlockString C}, b.Consumes →
    ∀ m, ¬ b.EmptyAt env rGroup e U Su maxRange m
  | .blockString2 _, hb, m => BlockString2.Consumes.not_emptyAt hb m
  | .or _ _, hb, m => fun hempty => hempty.elim (BlockString2.Consumes.not_emptyAt hb.1 m)
      (BlockString.Consumes.not_emptyAt hb.2 m)

end

/-! ## 3. Strings that do not look back -/

/-- The start monads behind a power block are not before its lower limit, and that is in the
substrate. -/
theorem le_of_startsBehind (h : e.Promised U Su) {b : BlockString2 C} {power : Power}
    (hb : b.getBlockString1.StaysForward e) {d s : Int}
    (hs : b.StartsBehind e U Su maxRange power d s) :
    d + 1 + power.low maxRange ≤ s ∧ d + 1 + power.low maxRange ≤ Su.last := by
  obtain ⟨hleaves, smi, hsmi, hmem⟩ := hs
  obtain ⟨hne, hlast⟩ := le_last_of_rRestrict h.substrateRep hleaves.2
  refine ⟨?_, hlast⟩
  by_contra hlt
  have hlt := not_le.mp hlt
  have hyields := blockString1_yields h hne hlast hb.1 hsmi
  exact (BlockString1.not_backTo h hlast hlt hb.2).1
    ((hyields.back s hlt).mp ((List.takeWhile_sublist _).subset hmem))

theorem Power.Limits.low_nonneg {power : Power} (h : power.Limits) (hmax : 0 ≤ maxRange) :
    0 ≤ power.low maxRange :=
  le_min h.1 (le_min h.2 hmax)

theorem onward_gapBlock (hSu : Su.RepInv) (b : GapBlock C) (m : Int) :
    Onward Su.last (b.Spans env rGroup Su m) False m := by
  have hspans : ∀ last, b.Spans env rGroup Su m last → 0 ≤ last ∧ m ≤ last ∧ m ≤ Su.last := by
    rintro last ⟨gapLast, somn, hgap, hsomn, -, rfl⟩
    have hisGap := isGap_of_gapExists hSu hgap
    have hafter := (hSu.isGreatest_last (StartMonadInfo.ne_nil_of_mem hisGap.after)).2 hisGap.after
    have hle := hisGap.le
    change gapLast + 1 ≤ Su.last at hafter
    refine ⟨?_, le_last_of_add hsomn, by omega⟩
    obtain ⟨mse, -, rfl⟩ := Option.map_eq_some_iff.mp hsomn
    show 0 ≤ if mse.lastM > 0 then mse.lastM else 0
    split <;> omega
  refine ⟨fun last hlast => (hspans last hlast).1, fun last hlast => ?_,
    fun last hlast _ => (hspans last hlast).2.2, fun hm => iff_of_false (fun hlast => ?_) id⟩
  · have := (hspans last hlast).2.1
    omega
  · have := (hspans _ hlast).2.1
    omega

theorem onward_block (h : e.Promised U Su) (hlast : U.last ≤ Su.last) (m : Int) :
    ∀ b : Block C, b.InstSound → Onward Su.last (b.Spans env rGroup e U Su m)
      (b.EmptyAt env rGroup e U Su m) m
  | .gapBlock b, _ => onward_gapBlock h.substrateRep b m
  | .optGapBlock b, _ =>
    ((onward_gapBlock h.substrateRep b m).or (onward_skipped h.substrateRep.bounds_inRange.2
      (Su.gapExists m = some none) m)).congr (fun last => by rw [Block.Spans])
        (iff_of_eq (false_or _))
  | .powerBlock _, _ => ⟨fun _ => False.elim, fun _ => False.elim, fun _ => False.elim,
      fun _ => Iff.rfl⟩
  | .objectBlock (.mk info optBlocks), hb => by
    have hspans : ∀ last, (Block.objectBlock (.mk info optBlocks)).Spans env rGroup e U Su m last →
        0 ≤ last ∧ m ≤ last ∧ m ≤ Su.last := by
      rintro last ⟨o, ho, hpasses, rfl⟩
      obtain ⟨hin, hofirst⟩ := of_mem_objectsStarting ho
      obtain ⟨hrep, hne, hfirst, -⟩ := hb o hin
      have hle : o.monads.first ≤ o.monads.last := hrep.first_le_last hne
      have hwithin := first_le_of_exec hrep hne h.universeRep h.substrateRep hlast hpasses.related
      rw [hfirst, hofirst] at hle hwithin
      exact ⟨le_max_right _ _, le_trans hle (le_max_left _ _), hwithin⟩
    refine ⟨fun last hl => (hspans last hl).1, fun last hl => ?_,
      fun last hl _ => (hspans last hl).2.2, fun hm => iff_of_false (fun hl => ?_) id⟩
    · have := (hspans last hl).2.1
      omega
    · have := (hspans _ hl).2.1
      omega
  | .objectBlockNOTEXIST b, _ =>
    onward_skipped h.substrateRep.bounds_inRange.2 (b.NothingThere env rGroup e U Su m) m

mutual

theorem onward_blockString0 (h : e.Promised U Su) (hlast : U.last ≤ Su.last) (hmax : 0 ≤ maxRange) :
    ∀ b : BlockString0 C, b.StarSets → b.AllBlocks Block.InstSound →
      b.Forward (BlockString1.StaysForward e) → ∀ m, Onward Su.last
        (b.Spans env rGroup e U Su maxRange m) (b.EmptyAt env rGroup e U Su maxRange m) m
  | .block b, _, hinst, _, m =>
    (onward_block h hlast m b hinst).congr (fun last => by rw [BlockString0.Spans])
      (by rw [BlockString0.EmptyAt])
  | .blockString b, hstars, hinst, hb, m =>
    (onward_blockString h hlast hmax b hstars hinst hb m).congr
      (fun last => by rw [BlockString0.Spans]) (by rw [BlockString0.EmptyAt])

theorem onward_blockString1 (h : e.Promised U Su) (hlast : U.last ≤ Su.last) (hmax : 0 ≤ maxRange) :
    ∀ b : BlockString1 C, b.StarSets → b.AllBlocks Block.InstSound →
      b.Forward (BlockString1.StaysForward e) → ∀ m, Onward Su.last
        (b.Spans env rGroup e U Su maxRange m) (b.EmptyAt env rGroup e U Su maxRange m) m
  | .nonStar b, hstars, hinst, hb, m =>
    (onward_blockString0 h hlast hmax b hstars hinst hb m).congr
      (fun last => by rw [BlockString1.Spans]) (by rw [BlockString1.EmptyAt])
  | .star b starSOM, hstars, hinst, hb, m =>
    (Onward.star (onward_blockString0 h hlast hmax b hstars.2 hinst hb)
      h.substrateRep.bounds_inRange.2 hstars.1 m).congr
        (fun last => by rw [BlockString1.Spans]) (by rw [BlockString1.EmptyAt])

theorem onward_blockString2 (h : e.Promised U Su) (hlast : U.last ≤ Su.last) (hmax : 0 ≤ maxRange) :
    ∀ b : BlockString2 C, b.StarSets → b.AllBlocks Block.InstSound →
      b.Forward (BlockString1.StaysForward e) → ∀ m, Onward Su.last
        (b.Spans env rGroup e U Su maxRange m) (b.EmptyAt env rGroup e U Su maxRange m) m
  | .blockString1 _ b, hstars, hinst, hb, m =>
    (onward_blockString1 h hlast hmax b hstars hinst hb m).congr
      (fun last => by rw [BlockString2.Spans]) (by rw [BlockString2.EmptyAt])
  | .sequence node b (.blockString1 node' next), hstars, hinst, hb, m => by
    have hfirst := onward_blockString1 h hlast hmax b hstars.1 hinst.1 hb.1 m
    have hrest := onward_blockString2 h hlast hmax (.blockString1 node' next) hstars.2 hinst.2 hb.2
    cases hpower : next.getPowerBlock with
    | some power =>
      have hnone : ∀ last, ¬ (BlockString2.sequence node b (.blockString1 node' next)).Spans env
          rGroup e U Su maxRange m last := fun last hspans => by
        rw [BlockString2.Spans, hpower] at hspans
        cases hspans.1
      refine ⟨fun last hl => (hnone last hl).elim, fun last hl => (hnone last hl).elim,
        fun last hl => (hnone last hl).elim, fun hm => iff_of_false (hnone _) fun hempty => ?_⟩
      rw [BlockString2.EmptyAt, hpower] at hempty
      cases hempty.1
    | none =>
      refine (hfirst.then (T := fun d s => s = d + 1) (fun d s hs => ge_of_eq hs)
        (fun d s hs hlt => absurd hlt (by omega)) hrest).congr (fun last => ?_) ?_
      · rw [BlockString2.Spans, and_iff_right hpower]
        simp
      · exact ⟨fun hempty => ⟨hpower, hempty.1, hempty.2.2⟩,
          fun hempty => ⟨hempty.2.1, (sub_add_cancel m 1).symm, hempty.2.2⟩⟩
  | .sequence _ b (.sequence node next nextButOne), hstars, hinst, hb, m => by
    have hfirst := onward_blockString1 h hlast hmax b hstars.1 hinst.1 hb.1 m
    have hforward := hb.2
    cases hpower : next.getPowerBlock with
    | some power =>
      rw [hpower] at hforward
      obtain ⟨hlimits, hlooks, hnext⟩ := hforward
      have hrest := onward_blockString2 h hlast hmax nextButOne hstars.2.2 hinst.2.2 hnext
      have hlow := hlimits.low_nonneg hmax
      refine (hfirst.then (T := nextButOne.StartsBehind e U Su maxRange power) (fun d s hs => ?_)
        (fun d s hs _ => ?_) hrest).congr (fun last => ?_) ?_
      · have := (le_of_startsBehind h hlooks hs).1
        omega
      · have := (le_of_startsBehind h hlooks hs).2
        omega
      · rw [BlockString2.Spans, hpower]
      · rw [BlockString2.EmptyAt, hpower]
    | none =>
      rw [hpower] at hforward
      have hrest := onward_blockString2 h hlast hmax (.sequence node next nextButOne) hstars.2
        hinst.2 hforward
      refine (hfirst.then (T := fun d s => s = d + 1) (fun d s hs => ge_of_eq hs)
        (fun d s hs hlt => absurd hlt (by omega)) hrest).congr (fun last => ?_) ?_
      · rw [BlockString2.Spans, hpower]
        simp
      · rw [BlockString2.EmptyAt, hpower]
        simp

theorem onward_blockString (h : e.Promised U Su) (hlast : U.last ≤ Su.last) (hmax : 0 ≤ maxRange) :
    ∀ b : BlockString C, b.StarSets → b.AllBlocks Block.InstSound →
      b.Forward (BlockString1.StaysForward e) → ∀ m, Onward Su.last
        (b.Spans env rGroup e U Su maxRange m) (b.EmptyAt env rGroup e U Su maxRange m) m
  | .blockString2 b, hstars, hinst, hb, m =>
    (onward_blockString2 h hlast hmax b hstars hinst hb m).congr
      (fun last => by rw [BlockString.Spans]) (by rw [BlockString.EmptyAt])
  | .or b rest, hstars, hinst, hb, m =>
    ((onward_blockString2 h hlast hmax b hstars.1 hinst.1 hb.1 m).or
      (onward_blockString h hlast hmax rest hstars.2 hinst.2 hb.2 m)).congr
        (fun last => by rw [BlockString.Spans]) (by rw [BlockString.EmptyAt])

end

end EmptyAt

/-! ## 4. Strings without power blocks -/

section NoPower

variable {C : Type} {looks : BlockString1 C → Prop}

theorem Block.InstSound.forward {b : Block C} (hb : b.InstSound) : b.Forward := by
  cases b with
  | objectBlock objectBlock =>
    obtain ⟨info, optBlocks⟩ := objectBlock
    intro o ho
    obtain ⟨hrep, hne, hfirst, -⟩ := hb o ho
    have hle : o.monads.first ≤ o.monads.last := hrep.first_le_last hne
    exact ⟨hfirst, hfirst ▸ hle⟩
  | _ => trivial

mutual

/-- Without power blocks nothing looks back. -/
theorem BlockString0.forward : ∀ (b : BlockString0 C), b.AllBlocks Block.InstSound →
    b.AllBlocks Block.NoPower → b.Forward looks
  | .block _, hb, _ => Block.InstSound.forward hb
  | .blockString b, hb, hpower => b.forward hb hpower

theorem BlockString1.forward : ∀ (b : BlockString1 C), b.AllBlocks Block.InstSound →
    b.AllBlocks Block.NoPower → b.Forward looks
  | .nonStar b, hb, hpower => b.forward hb hpower
  | .star b _, hb, hpower => b.forward hb hpower

theorem BlockString2.forward : ∀ (b : BlockString2 C), b.AllBlocks Block.InstSound →
    b.AllBlocks Block.NoPower → b.Forward looks
  | .blockString1 _ b, hb, hpower => b.forward hb hpower
  | .sequence _ b (.blockString1 _ next), hb, hpower =>
    ⟨b.forward hb.1 hpower.1, next.forward hb.2 hpower.2⟩
  | .sequence _ b (.sequence node next nextButOne), hb, hpower => by
    have hrest := BlockString2.forward (.sequence node next nextButOne) hb.2 hpower.2
    refine ⟨b.forward hb.1 hpower.1, ?_⟩
    cases hnext : next.getPowerBlock with
    | some power => exact absurd hpower.2.1 (BlockString1.of_getPowerBlock hnext).1
    | none => exact hrest

theorem BlockString.forward : ∀ (b : BlockString C), b.AllBlocks Block.InstSound →
    b.AllBlocks Block.NoPower → b.Forward looks
  | .blockString2 b, hb, hpower => b.forward hb hpower
  | .or b rest, hb, hpower => ⟨b.forward hb.1 hpower.1, rest.forward hb.2 hpower.2⟩

end

end NoPower

/-! ## 5. The rounds of a star -/

section Star

variable {C S σ : Type}

/-- The star of the string makes no progress behind one of its repetitions. -/
def BlockString0.StarStalls (env : QueryEnv C S σ)
    (rGroup : ObjectBlockString C → Option (MQLResultCallback σ) → Bool →
      List (List Straw) → Eval σ Sheaf) (e : StartMonadEnv) (U Su : SetOfMonads) (maxRange : Int)
    (b : BlockString0 C) (starSOM : SetOfMonads) (Sm : Int) : Prop :=
  Stalls (fun m last => b.Spans env rGroup e U Su maxRange m last) starSOM Sm

/-- It has more repetitions than there are monads left of the substrate. -/
def BlockString0.StarOverruns (env : QueryEnv C S σ)
    (rGroup : ObjectBlockString C → Option (MQLResultCallback σ) → Bool →
      List (List Straw) → Eval σ Sheaf) (e : StartMonadEnv) (U Su : SetOfMonads) (maxRange : Int)
    (b : BlockString0 C) (starSOM : SetOfMonads) (Sm : Int) : Prop :=
  Overruns (fun m last => b.Spans env rGroup e U Su maxRange m last) starSOM Sm
    (Su.last - Sm + 2).toNat

end Star

section Words

theorem wordBlock_instSound : wordBlock.AllBlocks Block.InstSound := by
  intro o ho
  rcases List.mem_cons.mp ho with rfl | ho
  · exact wordAt_sound 7 (by decide) (by decide)
  · rw [List.mem_singleton.mp ho]
    exact wordAt_sound 8 (by decide) (by decide)

/-- `[gap?]`. -/
def optGap : BlockString0 Unit :=
  .block (.optGapBlock (.mk .kNoRetrieve ⟨1, .kNoRetrieve⟩ .null))

/-- `{ 1-9 }`. -/
def oneToNine : SetOfMonads := ⟨[⟨1, 9, by decide⟩], 1, 9⟩

/-- The substrate from 1 to 3. -/
def threeMonads : SetOfMonads := StartMonadInfo.monadRange 1 3 (by decide)

end Words

end Emdros
