/-
# `NOTEXIST` (`R_block`, `mql_R.cpp`)

That nothing exists is found out by trying the block at a list of start monads.  They come from
`ObjectBlock::getSMI`, which for a `NOTEXIST` block cannot look them up in the inst: it takes the
monads of the substrate, and for `overlap` those between the lower bound and the start of the
substrate too.

`objectStraws` is what `R_object_block_inst` does with one object.  The block succeeds exactly if
no object satisfies it that starts at one of these monads (`rNOTEXIST_run`); an object that starts
in a gap of the substrate and overlaps what comes after the gap is not looked for
(`rBlock_notExist_iff`).
-/
import Emdros.MQL.StarProgress

namespace Emdros

open Partial SpanList

/-! ## 1. The monads of a set -/

namespace SetOfMonads

/-- Consecutive monads after a first one. -/
theorem mem_consecutive {first last m : Int} :
    m ∈ (List.range (last - first).toNat).map (fun i : Nat => first + 1 + i)
      ↔ first < m ∧ m ≤ last := by
  simp only [List.mem_map, List.mem_range]
  constructor
  · rintro ⟨i, hi, rfl⟩
    omega
  · intro h
    exact ⟨(m - (first + 1)).toNat, by omega, by omega⟩

theorem consecutive_ascends (first last : Int) :
    ((List.range (last - first).toNat).map fun i : Nat => first + 1 + i).Pairwise (· < ·) := by
  rw [List.pairwise_map]
  exact List.pairwise_lt_range.imp fun h => by omega

/-- The iterator goes through an element and on to the next one. -/
theorem monadsFrom_cons (first : Int) (e : MonadSetElement) (rest : List MonadSetElement) :
    ∃ next, (∀ e', rest.head? = some e' → next = e'.firstM) ∧ monadsFrom first (e :: rest)
      = first :: (List.range (e.lastM - first).toNat).map (fun i : Nat => first + 1 + i) ++
        monadsFrom next rest := by
  cases rest with
  | nil =>
    exact ⟨maxMonad, fun _ he' => (Option.some_ne_none _ he'.symm).elim, by simp [monadsFrom, ← List.map_eq_flatMap, Function.comp_def]⟩
  | cons e'' rest =>
    exact ⟨e''.firstM, fun _ he' => congrArg MonadSetElement.firstM (Option.some.inj he'),
      by simp [monadsFrom, ← List.map_eq_flatMap, Function.comp_def]⟩

/-- The iterator over the elements of a set yields their monads... -/
theorem mem_monadsFrom {m : Int} : ∀ {l : List MonadSetElement} {first : Int},
    (∀ e, l.head? = some e → first = e.firstM) → (m ∈ monadsFrom first l ↔ m ∈ cover l)
  | [], _, _ => by simp [monadsFrom]
  | e :: rest, first, hfirst => by
    obtain rfl := hfirst e rfl
    have hle := e.first_le_last
    obtain ⟨next, hnext, hcons⟩ := monadsFrom_cons e.firstM e rest
    rw [hcons, List.mem_append, List.mem_cons, mem_consecutive, mem_monadsFrom hnext,
      mem_cover_cons]
    refine or_congr_left ?_
    rw [MonadSetElement.spanned_lo, MonadSetElement.spanned_hi]
    omega

/-- ...in ascending order. -/
theorem monadsFrom_ascends : ∀ {l : List MonadSetElement} {first : Int}, Sep l →
    (∀ e, l.head? = some e → first = e.firstM) → (monadsFrom first l).Pairwise (· < ·)
  | [], _, _, _ => List.Pairwise.nil
  | e :: rest, first, hsep, hfirst => by
    obtain rfl := hfirst e rfl
    have hle := e.first_le_last
    obtain ⟨hbefore, hrest⟩ := List.pairwise_cons.mp hsep
    obtain ⟨next, hnext, hcons⟩ := monadsFrom_cons e.firstM e rest
    rw [hcons, List.pairwise_append]
    refine ⟨List.pairwise_cons.mpr ⟨fun m hm => (mem_consecutive.mp hm).1,
      consecutive_ascends _ _⟩, monadsFrom_ascends hrest hnext, fun m hm m' hm' => ?_⟩
    obtain ⟨e', he', hlo, -⟩ := (mem_monadsFrom hnext).mp hm'
    have hgap := hbefore e' he'
    simp only [MonadSetElement.spanned_lo, MonadSetElement.spanned_hi] at hgap hlo
    rcases List.mem_cons.mp hm with rfl | hm
    · omega
    · have := (mem_consecutive.mp hm).2
      omega

theorem constMonads_first {s : SetOfMonads} (h : s.RepInv) : ∀ e, s.monadMs.head? = some e →
    (if s.monadMs.isEmpty then maxMonad else s.first) = e.firstM := by
  intro e he
  have hne : s.monadMs.isEmpty = false := by
    cases hs : s.monadMs with
    | nil => rw [hs] at he; cases he
    | cons _ _ => rfl
  rw [hne, if_neg Bool.false_ne_true]
  exact h.first_eq e he

theorem mem_constMonads {s : SetOfMonads} (h : s.RepInv) {m : Int} :
    m ∈ s.constMonads ↔ m ∈ s.mem := mem_monadsFrom (constMonads_first h)

theorem constMonads_ascends {s : SetOfMonads} (h : s.RepInv) :
    s.constMonads.Pairwise (· < ·) := monadsFrom_ascends h.sep (constMonads_first h)

end SetOfMonads

section Ordered

variable {ι : Type} {key : ι → Int} {bound : Int} {i : ι}

/-- What is left of a list in ascending order from a bound on. -/
theorem mem_dropWhile_lt : ∀ {l : List ι}, (l.Pairwise fun i j => key i ≤ key j) →
    (i ∈ l.dropWhile (fun i => key i < bound) ↔ i ∈ l ∧ bound ≤ key i)
  | [], _ => by simp
  | first :: l, h => by
    obtain ⟨hfirst, hl⟩ := List.pairwise_cons.mp h
    rw [List.dropWhile_cons]
    by_cases hlt : key first < bound
    · rw [if_pos (decide_eq_true hlt), mem_dropWhile_lt hl, List.mem_cons]
      constructor
      · exact fun hm => ⟨Or.inr hm.1, hm.2⟩
      · rintro ⟨rfl | hm, hle⟩
        · omega
        · exact ⟨hm, hle⟩
    · rw [if_neg (by simpa using hlt)]
      refine ⟨fun hm => ⟨hm, ?_⟩, And.left⟩
      rcases List.mem_cons.mp hm with rfl | hm
      · omega
      · have := hfirst i hm
        omega

/-- The start of a list in ascending order that begins with a bound. -/
theorem mem_takeWhile_eq : ∀ {l : List ι}, (l.Pairwise fun i j => key i ≤ key j) →
    (∀ i ∈ l, bound ≤ key i) →
    (i ∈ l.takeWhile (fun i => key i = bound) ↔ i ∈ l ∧ key i = bound)
  | [], _, _ => by simp
  | first :: l, h, hge => by
    obtain ⟨hfirst, hl⟩ := List.pairwise_cons.mp h
    have hrest := mem_takeWhile_eq hl fun j hj => hge j (List.mem_cons_of_mem first hj)
    rw [List.takeWhile_cons]
    by_cases heq : key first = bound
    · rw [if_pos (decide_eq_true heq), List.mem_cons, hrest, List.mem_cons]
      constructor
      · rintro (rfl | hm)
        · exact ⟨Or.inl rfl, heq⟩
        · exact ⟨Or.inr hm.1, hm.2⟩
      · rintro ⟨rfl | hm, hi⟩
        · exact Or.inl rfl
        · exact Or.inr ⟨hm, hi⟩
    · rw [if_neg (by simpa using heq)]
      refine iff_of_false List.not_mem_nil ?_
      have hlt := hge first List.mem_cons_self
      rintro ⟨hm, hi⟩
      rcases List.mem_cons.mp hm with rfl | hm
      · exact heq hi
      · have := hfirst i hm
        omega

end Ordered

/-! ## 2. The start monads of a `NOTEXIST` block -/

namespace StartMonadInfo

variable {b : StartMonadInfo} {allM1 Su : SetOfMonads} {Sm m : Int}

/-- The monads at which the block is tried, as far as objects that are related to the substrate or
to its range start there. -/
def Tried (b : StartMonadInfo) (Su : SetOfMonads) (m : Int) : Prop :=
  m ∈ Su.mem ∨ b.operation = .kMSROOverlap ∧ m ≤ Su.first

/-- `Suping`, where the substrate is empty. -/
theorem suping_of_empty (hmonads : b.isMonads = true) (hlength : 1 ≤ b.largestObjectLength)
    (hall : allM1.RepInv) (hSu : Su.RepInv) (hempty : Su.monadMs = []) (hone : 1 ≤ allM1.last)
    (hend : Sm ≤ allM1.last + 1) :
    ∃ Suping, b.suping allM1 Su Sm = some Suping ∧ Suping.RepInv := by
  have hisEmpty : Su.isEmpty = true := SetOfMonads.isEmpty_iff.mpr hempty
  unfold suping lowerBoundSm upperBoundUniverseEnd
  rw [if_pos hmonads, if_pos hmonads, hisEmpty, if_pos rfl]
  cases b.operation with
  | kMSROPartOf => exact ⟨Su, if_pos hisEmpty, hSu⟩
  | kMSROStartsIn => exact ⟨Su, if_pos hisEmpty, hSu⟩
  | kMSROOverlap =>
    have hle : max 1 (Sm - b.largestObjectLength) ≤ allM1.last := max_le hone (by omega)
    have hmax : allM1.last ≤ maxMonad :=
      (SetOfMonads.inRange_of_mem_cover hall.inRange (hall.isGreatest_last fun hnil => by
        have hzero : allM1.last = 0 := (hall.empty_eq hnil).2
        omega).1).2
    obtain ⟨Suping, hadd, hrep, -⟩ := add_spec hSu hle (by omega) hmax
    exact ⟨Suping, (if_pos hisEmpty).trans hadd, hrep⟩

/-- `Suping`, as far as monads between its bounds go. -/
theorem suping_of_ne (hmonads : b.isMonads = true) (hall : allM1.RepInv) (hSu : Su.RepInv)
    (hne : Su.monadMs ≠ []) (hsub : Su.mem ⊆ allM1.mem) (hSm : 1 ≤ Sm) (hfrom : Sm ≤ Su.first)
    (hlength : 0 ≤ b.largestObjectLength) :
    ∃ Suping, b.suping allM1 Su Sm = some Suping ∧ Suping.RepInv ∧
      ∀ m, b.lowerBoundSm allM1 Sm ≤ m → m ≤ Su.last → (m ∈ Suping.mem ↔ b.Tried Su m) := by
  have hleast : IsLeast Su.mem Su.first := hSu.isLeast_first hne
  have hgreatest : IsGreatest Su.mem Su.last := hSu.isGreatest_last hne
  have hallne := ne_nil_of_mem (hsub hleast.1)
  have hleastAll : IsLeast allM1.mem allM1.first := hall.isLeast_first hallne
  have hgreatestAll : IsGreatest allM1.mem allM1.last := hall.isGreatest_last hallne
  have hminAll := (SetOfMonads.inRange_of_mem_cover hall.inRange hleastAll.1).1
  have hmaxAll := (SetOfMonads.inRange_of_mem_cover hall.inRange hgreatestAll.1).2
  have hfl : Su.first ≤ Su.last := hleast.2 hgreatest.1
  have hfirst : allM1.first ≤ Su.first := hleastAll.2 (hsub hleast.1)
  have hlast : min allM1.last Su.last = Su.last := min_eq_right (hgreatestAll.2 (hsub hgreatest.1))
  have hnarrowed : b.operation ≠ .kMSROOverlap →
      ∃ Suping, narrowed Su (max allM1.first Sm) Su.last = some Suping ∧ Suping.RepInv ∧
        ∀ m, max allM1.first Sm ≤ m → m ≤ Su.last → (m ∈ Suping.mem ↔ b.Tried Su m) := by
    intro hop
    obtain ⟨Suping, hsuping, hrep, hmem⟩ := narrowed_spec hSu hne
      (show max allM1.first Sm ≤ Su.last by omega) (by omega) (by omega)
    refine ⟨Suping, hsuping, hrep, fun m hlower hupper => ?_⟩
    rw [hmem, Tried, or_iff_left fun h => hop h.1]
    exact and_iff_left ⟨hlower, hupper⟩
  have hupper : b.upperBoundUniverseEnd allM1 Su = Su.last := by
    rw [upperBoundUniverseEnd, if_pos hmonads, isEmpty_of_ne hne, if_neg Bool.false_ne_true, hlast]
  unfold suping lowerBoundSm
  rw [if_pos hmonads, hupper]
  cases hop : b.operation with
  | kMSROPartOf => exact hnarrowed (by rw [hop]; decide)
  | kMSROStartsIn => exact hnarrowed (by rw [hop]; decide)
  | kMSROOverlap =>
    obtain ⟨Suping, hsuping, hrep, -, -, hmem⟩ := widened_spec hSu hne
      (show max 1 (Sm - b.largestObjectLength) ≤ Su.first by omega) (by omega) rfl
    refine ⟨Suping, hsuping, hrep, fun m hlower _ => ?_⟩
    rw [hmem, Tried, hop]
    exact or_congr_right ⟨fun h => ⟨rfl, h.2⟩, fun h => ⟨hlower, h.2⟩⟩

/-- The iterator of a `NOTEXIST` block that is not asked for by its block string. -/
theorem getSMI_notExist (hnotexist : b.isNOTEXIST = true) {Suping : SetOfMonads}
    (hsuping : b.suping allM1 Su Sm = some Suping) (hrep : Suping.RepInv) (inst : SkipList) :
    ∃ smi, b.getSMI allM1 inst Su Sm false = some smi ∧
      ∀ m, m ∈ smi.monads ↔ m ∈ Suping.mem ∧ b.lowerBoundSm allM1 Sm ≤ m := by
  obtain ⟨Uping, huping, -⟩ := uping_spec hrep
  refine ⟨⟨Suping, Suping.constMonads.dropWhile fun current =>
    current < b.lowerBoundSm allM1 Sm⟩, ?_, fun m => ?_⟩
  · rw [getSMI, hsuping, Option.bind_eq_bind, Option.bind_some, huping, Option.bind_some,
      if_pos hnotexist, Bool.and_false, if_neg Bool.false_ne_true]
    rfl
  · rw [mem_dropWhile_lt ((SetOfMonads.constMonads_ascends hrep).imp le_of_lt),
      SetOfMonads.mem_constMonads hrep]

end StartMonadInfo

/-! ## 3. The objects at the start monads -/

section Objects

variable {C S σ : Type} {env : QueryEnv C S σ} {U Su : SetOfMonads} {info : ObjectBlockInfo C}
  {noOptBlocks : Bool} {rOptBlocks : SetOfMonads → SetOfMonads → Eval σ (Option Sheaf)}

/-- What `R_object_block_inst` does with an object: one straw if it satisfies the block. -/
def objectStraws (env : QueryEnv C S σ) (U Su : SetOfMonads) (info : ObjectBlockInfo C)
    (noOptBlocks : Bool) (rOptBlocks : SetOfMonads → SetOfMonads → Eval σ (Option Sheaf))
    (o : MonadedObject) : Eval σ (List Straw) := do
  let bDoObject ← doObject env U Su info o
  if bDoObject then do
    let pInner ← innerSheaf noOptBlocks do
      let Uping ← ofOption (SetOfMonads.empty.add o.first o.last)
      rOptBlocks Uping o.monads
    if pInner.any Sheaf.isFail then pure []
    else pure [Straw.new.append (MatchedObject.ofObject o.idD o.monads pInner info.obb)]
  else pure []

/-- The objects that are tried at a monad. -/
def objectsStarting (info : ObjectBlockInfo C) (Sm : Int) : List MonadedObject :=
  (info.objectsAtSm Sm).takeWhile fun o => o.first = Sm

theorem rObjectBlockInst_eq (Sm : Int) :
    rObjectBlockInst env U Su Sm info noOptBlocks rOptBlocks
      = collect (objectStraws env U Su info noOptBlocks rOptBlocks) (objectsStarting info Sm) := by
  rw [← foldlM_append_nil]
  refine congrArg (fun step => List.foldlM step [] (objectsStarting info Sm)) ?_
  funext resultLOS o
  rw [objectStraws, bind_assoc]
  refine bind_congr fun bDoObject => ?_
  split
  · rw [bind_assoc]
    refine bind_congr fun pInner => ?_
    split
    · rw [pure_bind, List.append_nil]
    · rw [pure_bind]
  · rw [pure_bind, List.append_nil]

/-- In an inst that is in order, these are all that start there. -/
theorem mem_objectsStarting (hordered : info.inst.Pairwise fun o o' => o.first ≤ o'.first)
    {Sm : Int} {o : MonadedObject} :
    o ∈ objectsStarting info Sm ↔ o ∈ info.inst ∧ o.first = Sm := by
  have heq : objectsStarting info Sm
      = (info.inst.dropWhile fun o => o.first < Sm).takeWhile fun o => o.first = Sm := by
    unfold objectsStarting ObjectBlockInfo.objectsAtSm
    cases info.inst.dropWhile fun o => o.first < Sm with
    | nil => rfl
    | cons o rest =>
      dsimp only
      split
      · rename_i hne
        rw [List.takeWhile_nil, List.takeWhile_cons, if_neg (by simpa using hne)]
      · rfl
  have hfrom : ∀ {o : MonadedObject}, o ∈ (info.inst.dropWhile fun o => o.first < Sm)
      ↔ o ∈ info.inst ∧ Sm ≤ o.first := mem_dropWhile_lt hordered
  rw [heq, mem_takeWhile_eq (hordered.sublist (List.dropWhile_sublist _))
    fun o ho => (hfrom.mp ho).2, hfrom]
  exact ⟨fun h => ⟨h.1.1, h.2⟩, fun h => ⟨⟨h.1, h.2.ge⟩, h.2⟩⟩

/-- An object that satisfies the block is related as the block says. -/
theorem related_of_gives {s : σ} {o : MonadedObject}
    (h : Gives (objectStraws env U Su info noOptBlocks rOptBlocks) s o) :
    info.msrc.exec o.monads U Su = some true := by
  obtain ⟨los, t, hrun, hne⟩ := h
  obtain ⟨bDoObject, t₁, hdo, hrest⟩ := bind_eq_some.mp hrun
  have htrue : bDoObject = true := by
    by_contra hfalse
    rw [if_neg hfalse] at hrest
    exact hne (Prod.mk.inj (pure_eq_some.mp hrest)).1.symm
  unfold doObject at hdo
  split at hdo
  · obtain ⟨bRelated, t₂, hexec, hfeatures⟩ := bind_eq_some.mp hdo
    obtain ⟨hexec', -⟩ := ofOption_eq_some.mp hexec
    cases bRelated with
    | true => exact hexec'
    | false =>
      rw [if_neg Bool.false_ne_true] at hfeatures
      exact absurd ((Prod.mk.inj (pure_eq_some.mp hfeatures)).1.trans htrue) Bool.false_ne_true
  · exact absurd ((Prod.mk.inj (pure_eq_some.mp hdo)).1.trans htrue) Bool.false_ne_true

/-- The loop over start monads finds out whether an object that starts at one of them satisfies the
block. -/
theorem itWasThere_run (hordered : info.inst.Pairwise fun o o' => o.first ≤ o'.first) {s : σ}
    (hsteady : Steady (objectStraws env U Su info noOptBlocks rOptBlocks) info.inst s) :
    ∀ (smi : List Int) {t : σ},
      LeftBy (objectStraws env U Su info noOptBlocks rOptBlocks) info.inst s t →
      ∃ b t', (itWasThere (fun Sm => rObjectBlockInst env U Su Sm info noOptBlocks rOptBlocks)
          smi).run t = some (b, t') ∧
        (b = true ↔ ∃ o ∈ info.inst, o.first ∈ smi ∧
          Gives (objectStraws env U Su info noOptBlocks rOptBlocks) s o)
  | [], t, _ => ⟨false, t, rfl, by simp⟩
  | Sm :: smi, t, ht => by
    obtain ⟨los, t₁, hlos, hleft, hgives⟩ := hsteady.collect
      (fun o ho => ((mem_objectsStarting hordered).mp ho).1) (l := objectsStarting info Sm) ht
    rw [itWasThere, rObjectBlockInst_eq, run_bind_of_some hlos]
    by_cases hempty : los = []
    · subst hempty
      obtain ⟨b, t₂, hrest, hiff⟩ := itWasThere_run hordered hsteady smi hleft
      refine ⟨b, t₂, hrest, hiff.trans ?_⟩
      have hnone : ∀ o ∈ info.inst, o.first = Sm →
          ¬ Gives (objectStraws env U Su info noOptBlocks rOptBlocks) s o := fun o ho hfirst hg =>
        hgives.mpr ⟨o, (mem_objectsStarting hordered).mpr ⟨ho, hfirst⟩, hg⟩ rfl
      refine exists_congr fun o => and_congr_right fun ho => ?_
      rw [List.mem_cons]
      constructor
      · exact fun h => ⟨Or.inr h.1, h.2⟩
      · rintro ⟨hfirst | hmem, hg⟩
        · exact absurd hg (hnone o ho hfirst)
        · exact ⟨hmem, hg⟩
    · refine ⟨true, t₁, ?_, iff_of_true rfl ?_⟩
      · rw [if_pos (by simpa using hempty)]
        rfl
      · obtain ⟨o, ho, hg⟩ := hgives.mp hempty
        obtain ⟨hin, hfirst⟩ := (mem_objectsStarting hordered).mp ho
        exact ⟨o, hin, hfirst ▸ List.mem_cons_self, hg⟩

end Objects

/-! ## 4. `R_block` -/

section Block

variable {C S σ : Type} {env : QueryEnv C S σ}
  {rGroup : ObjectBlockString C → Option (MQLResultCallback σ) → Bool →
    List (List Straw) → Eval σ Sheaf}
  {e : StartMonadEnv} {U Su : SetOfMonads} {Sm : Int} {info : ObjectBlockInfo C}

/-- What the database and the callers of `R_block` promise: the relation is on the objects' own
monads; the substrate is in `all_m_1`, the universe is its range, and the start monad is at most
right behind all monads; the inst is in order, and no object is longer than the largest one. -/
structure NotExistInput (e : StartMonadEnv) (info : ObjectBlockInfo C) (U Su : SetOfMonads)
    (Sm : Int) : Prop where
  isMonads : (e.infoOf true info).isMonads = true
  largest : 1 ≤ e.largestObjectLength info.obb
  allM1 : e.allM1.RepInv
  substrate : Su.RepInv
  ne_nil : Su.monadMs ≠ []
  subset : Su.mem ⊆ e.allM1.mem
  one_le : 1 ≤ Su.first
  rangeRep : U.RepInv
  range : U.mem = Set.Icc Su.first Su.last
  start : 1 ≤ Sm ∧ Sm ≤ e.allM1.last + 1
  ordered : info.inst.Pairwise fun o o' => o.first ≤ o'.first
  objects : ∀ o ∈ info.inst, o.monads.RepInv ∧ o.monads.monadMs ≠ [] ∧
    o.monads.first = o.first ∧ 1 ≤ o.first ∧
    o.monads.last - o.first < e.largestObjectLength info.obb

/-- The universe or substrate of the test: from the start monad on behind another block. -/
def notExistSet (info : ObjectBlockInfo C) (Sm : Int) (som : SetOfMonads) : SetOfMonads :=
  if info.isAfterNonNOTEXISTInBlockString then rRestrict som Sm else som

/-- `Smping`. -/
def notExistStart (info : ObjectBlockInfo C) (U : SetOfMonads) (Sm : Int) : Int :=
  if info.isAfterNonNOTEXISTInBlockString then Sm else U.first

namespace NotExistInput

theorem notExistSet_spec (h : NotExistInput e info U Su Sm) {som : SetOfMonads}
    (hsom : som.RepInv) (hmem : som.mem ⊆ Set.Icc Su.first Su.last) :
    (notExistSet info Sm som).RepInv ∧
      (notExistSet info Sm som).mem = {m ∈ som.mem | notExistStart info U Sm ≤ m} := by
  have hfirst : U.first = Su.first := StartMonadInfo.first_of_isLeast h.rangeRep (h.range ▸
    isLeast_Icc (h.substrate.first_le_last h.ne_nil))
  unfold notExistSet notExistStart
  split
  · exact rRestrict_spec hsom Sm
  · refine ⟨hsom, Set.ext fun m => ⟨fun hm => ⟨hm, ?_⟩, And.left⟩⟩
    rw [hfirst]
    exact (hmem hm).1

/-- What an object that satisfies the block is related to lies between the bounds. -/
theorem related_bounds (h : NotExistInput e info U Su Sm) {o : MonadedObject} (ho : o ∈ info.inst)
    (hexec : info.msrc.exec o.monads (notExistSet info Sm U) (notExistSet info Sm Su)
      = some true) :
    ∃ x ∈ (info.msrc.related (notExistSet info Sm U) (notExistSet info Sm Su)).mem,
      x ∈ o.monads.mem ∧ (info.msrc.operation ≠ .kMSROOverlap → x = o.first) ∧
      Su.first ≤ x ∧ x ≤ Su.last ∧ notExistStart info U Sm ≤ x := by
  obtain ⟨hrep, hne, hfirst, -, -⟩ := h.objects o ho
  have hSuIcc : Su.mem ⊆ Set.Icc Su.first Su.last := fun m hm =>
    ⟨(h.substrate.isLeast_first h.ne_nil).2 hm, (h.substrate.isGreatest_last h.ne_nil).2 hm⟩
  obtain ⟨hUrep, hUmem⟩ := h.notExistSet_spec h.rangeRep h.range.subset
  obtain ⟨hSurep, hSumem⟩ := h.notExistSet_spec h.substrate hSuIcc
  obtain ⟨x, hx, hin, heq⟩ := exists_mem_of_exec hrep hne hUrep hSurep hexec
  refine ⟨x, hin, hx, fun hop => (heq hop).trans hfirst, ?_⟩
  unfold MonadSetRelationClause.related at hin
  split at hin
  · rw [hSumem] at hin
    exact ⟨(hSuIcc hin.1).1, (hSuIcc hin.1).2, hin.2⟩
  · rw [hUmem, h.range] at hin
    exact ⟨hin.1.1, hin.1.2, hin.2⟩

/-- The start monads are those of the substrate, and for `overlap` those before it, as far as
objects go that are related to it. -/
theorem getSMI_spec (h : NotExistInput e info U Su Sm) (optBlocks : OptBlocks C) :
    ∃ smi, ObjectBlock.getSMI e true (.mk info optBlocks) (notExistSet info Sm Su)
        (notExistStart info U Sm) false = some smi ∧
      ∀ o ∈ info.inst, info.msrc.exec o.monads (notExistSet info Sm U) (notExistSet info Sm Su)
          = some true →
        (o.first ∈ smi.monads ↔
          (e.infoOf true info).Tried (notExistSet info Sm Su) o.first) := by
  have hleast := h.substrate.isLeast_first h.ne_nil
  have hgreatest := h.substrate.isGreatest_last h.ne_nil
  have hSuIcc : Su.mem ⊆ Set.Icc Su.first Su.last := fun m hm => ⟨hleast.2 hm, hgreatest.2 hm⟩
  obtain ⟨hrep, hmem⟩ := h.notExistSet_spec h.substrate hSuIcc
  have hlargest : (e.infoOf true info).largestObjectLength = e.largestObjectLength info.obb := rfl
  have hallGreatest := h.allM1.isGreatest_last (StartMonadInfo.ne_nil_of_mem (h.subset hleast.1))
  have hall : Su.last ≤ e.allM1.last := hallGreatest.2 (h.subset hgreatest.1)
  have hone := h.one_le
  have hfl : Su.first ≤ Su.last := hleast.2 hgreatest.1
  have hlargest' := h.largest
  have hstart := h.start
  have hUfirst : U.first = Su.first := StartMonadInfo.first_of_isLeast h.rangeRep (h.range ▸
    isLeast_Icc hfl)
  have hSmping : 1 ≤ notExistStart info U Sm ∧ notExistStart info U Sm ≤ e.allM1.last + 1 := by
    unfold notExistStart
    split
    · exact hstart
    · rw [hUfirst]
      omega
  obtain ⟨inst, hinst, -⟩ := instStartMonads_insertAll
    (info.inst.map fun o => (o.toInstObject, 0)) (by
      intro i hi
      obtain ⟨o, ho, rfl⟩ := List.mem_map.mp hi
      obtain ⟨horep, hone, hofirst, -⟩ := h.objects o ho
      have hmax := horep.bounds_inRange.1
      have hfirst : o.monads.mFirst = o.first := hofirst
      have hnil : maxMonad < nilKey := by decide
      show o.first < nilKey
      omega) (List.forall_mem_map.mpr fun _ _ => Nat.zero_le _)
  have hblock : ∀ {smi}, (e.infoOf true info).getSMI e.allM1 inst (notExistSet info Sm Su)
      (notExistStart info U Sm) false = some smi →
      ObjectBlock.getSMI e true (.mk info optBlocks) (notExistSet info Sm Su)
        (notExistStart info U Sm) false = some smi := by
    intro smi hsmi
    rw [ObjectBlock.getSMI, hinst, Option.bind_eq_bind, Option.bind_some]
    exact hsmi
  by_cases hne : (notExistSet info Sm Su).monadMs = []
  · obtain ⟨Suping, hsuping, hsrep⟩ := StartMonadInfo.suping_of_empty h.isMonads h.largest h.allM1
      hrep hne (by omega) hSmping.2
    obtain ⟨smi, hsmi, -⟩ := StartMonadInfo.getSMI_notExist rfl hsuping hsrep inst
    refine ⟨smi, hblock hsmi, fun o ho hexec => ?_⟩
    -- nothing is related to an empty substrate
    obtain ⟨x, -, -, -, -, hx, hfrom⟩ := h.related_bounds ho hexec
    have hin : Su.last ∈ (notExistSet info Sm Su).mem := by
      rw [hmem]
      exact ⟨hgreatest.1, by omega⟩
    exact absurd hne (StartMonadInfo.ne_nil_of_mem hin)
  · have hleast' := hrep.isLeast_first hne
    have hfrom : notExistStart info U Sm ≤ (notExistSet info Sm Su).first := by
      have hin := hleast'.1
      rw [hmem] at hin
      exact hin.2
    have hsub : (notExistSet info Sm Su).mem ⊆ Su.mem := hmem ▸ Set.sep_subset _ _
    obtain ⟨Suping, hsuping, hsrep, htried⟩ := StartMonadInfo.suping_of_ne h.isMonads h.allM1 hrep
      hne (hsub.trans h.subset) hSmping.1 hfrom (by omega)
    obtain ⟨smi, hsmi, hsmiMem⟩ := StartMonadInfo.getSMI_notExist rfl hsuping hsrep inst
    refine ⟨smi, hblock hsmi, fun o ho hexec => ?_⟩
    obtain ⟨x, -, hx, heq, hx₁, hx₂, hx₃⟩ := h.related_bounds ho hexec
    obtain ⟨horep, hone', hofirst, hopos, holen⟩ := h.objects o ho
    have hox : o.first ≤ x := hofirst ▸ (horep.isLeast_first hone').2 hx
    have hxo : x ≤ o.monads.last := (horep.isGreatest_last hone').2 hx
    have hlast : Su.last ≤ (notExistSet info Sm Su).last := by
      refine (hrep.isGreatest_last hne).2 ?_
      rw [hmem]
      exact ⟨hgreatest.1, by omega⟩
    have hallFirst : e.allM1.first ≤ Su.first :=
      (h.allM1.isLeast_first (StartMonadInfo.ne_nil_of_mem (h.subset hleast.1))).2
        (h.subset hleast.1)
    have hlower : (e.infoOf true info).lowerBoundSm e.allM1 (notExistStart info U Sm)
        ≤ o.first := by
      unfold StartMonadInfo.lowerBoundSm
      rw [if_pos h.isMonads]
      have hop : (e.infoOf true info).operation = info.msrc.operation := rfl
      rw [hop]
      cases hoperation : info.msrc.operation with
      | kMSROOverlap =>
        dsimp only
        omega
      | _ =>
        have heq' := heq (by rw [hoperation]; decide)
        dsimp only
        omega
    rw [hsmiMem, htried o.first hlower (by omega)]
    exact and_iff_left hlower

/-- Every object that is related to the substrate is tried, unless the relation is `overlap` and the
substrate has gaps. -/
theorem tried_of_related (h : NotExistInput e info U Su Sm) {o : MonadedObject}
    (ho : o ∈ info.inst) (hexec : info.msrc.exec o.monads (notExistSet info Sm U)
      (notExistSet info Sm Su) = some true)
    (hcase : (info.msrc.universeOrSubstrate = .kMSNSubstrate ∧
      info.msrc.operation ≠ .kMSROOverlap) ∨ Set.Icc Su.first Su.last ⊆ Su.mem) :
    (e.infoOf true info).Tried (notExistSet info Sm Su) o.first := by
  obtain ⟨x, hin, hx, heq, hx₁, hx₂, hx₃⟩ := h.related_bounds ho hexec
  obtain ⟨horep, hone, hofirst, -, -⟩ := h.objects o ho
  have hox : o.first ≤ x := hofirst ▸ (horep.isLeast_first hone).2 hx
  rcases hcase with ⟨hname, hop⟩ | hfull
  · rw [heq hop, MonadSetRelationClause.related, if_pos hname] at hin
    exact Or.inl hin
  · have hSuIcc : Su.mem ⊆ Set.Icc Su.first Su.last := fun m hm =>
      ⟨(h.substrate.isLeast_first h.ne_nil).2 hm, (h.substrate.isGreatest_last h.ne_nil).2 hm⟩
    obtain ⟨hrep, hmem⟩ := h.notExistSet_spec h.substrate hSuIcc
    have hall : ∀ m, Su.first ≤ m → m ≤ Su.last → notExistStart info U Sm ≤ m →
        m ∈ (notExistSet info Sm Su).mem := by
      intro m hm₁ hm₂ hm₃
      rw [hmem]
      exact ⟨hfull ⟨hm₁, hm₂⟩, hm₃⟩
    have hxin := hall x hx₁ hx₂ hx₃
    by_cases hop : info.msrc.operation = .kMSROOverlap
    · have hleast := (hrep.isLeast_first (StartMonadInfo.ne_nil_of_mem hxin)).1
      rw [hmem] at hleast
      have hfrom := (hSuIcc hleast.1).1
      have hstart := hleast.2
      rcases le_or_gt o.first (notExistSet info Sm Su).mFirst with hle | hgt
      · exact Or.inr ⟨hop, hle⟩
      · exact Or.inl (hall o.first (by omega) (by omega) (by omega))
    · rw [heq hop] at hxin
      exact Or.inl hxin

end NotExistInput

/-- **`NOTEXIST`.**  Where what an object's test leaves behind does not change the answer for
another, `R_block` on a `NOTEXIST` block returns one `EMPTY_mo` or nothing.  It answers whether no
object satisfies the block exactly if, where one does, one does that starts in the substrate or,
with `overlap`, before it; so for `part_of` and `starts_in` the substrate, and where the substrate
has no gaps. -/
theorem rBlock_notExist_iff (optBlocks : OptBlocks C) (h : NotExistInput e info U Su Sm) {s : σ}
    {straws : MonadedObject → Eval σ (List Straw)}
    (hstraws : straws = objectStraws (env.withStartMonads e) (notExistSet info Sm U)
      (notExistSet info Sm Su) info optBlocks.isNull fun U Su =>
        Evaluator.rOptBlocks (env.withStartMonads e) rGroup optBlocks U Su maxMonad)
    (hsteady : Steady straws info.inst s) :
    ∃ los s', (Evaluator.rBlock (env.withStartMonads e) rGroup
        (.objectBlockNOTEXIST (.mk info optBlocks)) U Su Sm).run s = some (los, s') ∧
      (los = [] ∨ los = [Straw.skipped Sm]) ∧
      ((los = [Straw.skipped Sm] ↔ ∀ o ∈ info.inst, ¬ Gives straws s o) ↔
        ((∃ o ∈ info.inst, Gives straws s o) → ∃ o ∈ info.inst, Gives straws s o ∧
          (e.infoOf true info).Tried (notExistSet info Sm Su) o.first)) ∧
      ((info.msrc.universeOrSubstrate = .kMSNSubstrate ∧ info.msrc.operation ≠ .kMSROOverlap) ∨
          Set.Icc Su.first Su.last ⊆ Su.mem →
        (los = [Straw.skipped Sm] ↔ ∀ o ∈ info.inst, ¬ Gives straws s o)) := by
  obtain ⟨smi, hsmi, hstart⟩ := h.getSMI_spec optBlocks
  have hrelated : ∀ o, Gives straws s o → info.msrc.exec o.monads (notExistSet info Sm U)
      (notExistSet info Sm Su) = some true := fun o hg => related_of_gives (hstraws ▸ hg)
  obtain ⟨b, s', hrun, hfound⟩ :=
    itWasThere_run h.ordered (hstraws ▸ hsteady) smi.monads .start
  rw [← hstraws] at hfound
  have hanswer : b = true ↔ ∃ o ∈ info.inst, Gives straws s o ∧
      (e.infoOf true info).Tried (notExistSet info Sm Su) o.first := by
    refine hfound.trans (exists_congr fun o => and_congr_right fun ho => ?_)
    rw [and_comm]
    exact and_congr_right fun hg => hstart o ho (hrelated o hg)
  have hbody : Evaluator.rBlock (env.withStartMonads e) rGroup
      (.objectBlockNOTEXIST (.mk info optBlocks)) U Su Sm
      = (ofOption (some smi.monads) >>= fun smi => itWasThere (fun m =>
          rObjectBlockInst (env.withStartMonads e) (notExistSet info Sm U)
            (notExistSet info Sm Su) m info optBlocks.isNull fun U Su =>
              Evaluator.rOptBlocks (env.withStartMonads e) rGroup optBlocks U Su maxMonad) smi >>=
        fun bItWasThere => if bItWasThere then pure [] else pure [Straw.skipped Sm]) := by
    rw [Evaluator.rBlock, ← Option.map_some, ← hsmi]
    rfl
  have hlos : ((if b then [] else [Straw.skipped Sm]) = [Straw.skipped Sm]) ↔
      ¬ ∃ o ∈ info.inst, Gives straws s o ∧
        (e.infoOf true info).Tried (notExistSet info Sm Su) o.first := by
    rw [← hanswer]
    cases b <;> simp
  refine ⟨if b then [] else [Straw.skipped Sm], s', ?_, ?_, ?_, ?_⟩
  · rw [hbody, run_bind_of_some (run_ofOption_some rfl s), run_bind_of_some hrun]
    cases b <;> rfl
  · cases b
    · exact Or.inr rfl
    · exact Or.inl rfl
  · have hall : (∀ o ∈ info.inst, ¬ Gives straws s o) ↔ ¬ ∃ o ∈ info.inst, Gives straws s o := by
      simp only [not_exists, not_and]
    rw [hlos, hall]
    constructor
    · exact fun hiff hany => by_contra fun hnone => hiff.mp hnone hany
    · exact fun himp => ⟨mt himp, mt fun hfound => hfound.imp fun o ho => ⟨ho.1, ho.2.1⟩⟩
  · intro hcase
    rw [hlos]
    refine ⟨fun hnone o ho hg => hnone ⟨o, ho, hg, ?_⟩, fun hall hfound => ?_⟩
    · exact h.tried_of_related ho (hrelated o hg) hcase
    · obtain ⟨o, ho, hg, -⟩ := hfound
      exact hall o ho hg

end Block

section Words

/-- An item that succeeds from the only state there is gives the same again. -/
theorem steady_unit {ι α : Type} {x : ι → Eval Unit (List α)} {items : List ι}
    (h : ∀ i ∈ items, ∃ as, (x i).run () = some (as, ())) : Steady x items () := by
  intro t _ i hi
  obtain ⟨as, hrun⟩ := h i hi
  refine ⟨as, (), hrun, fun hne => ⟨as, (), hrun, hne⟩, ?_⟩
  rintro ⟨as', _, hrun', hne⟩ hnil
  rw [hrun] at hrun'
  exact hne ((Prod.mk.inj (Option.some.inj hrun')).1 ▸ hnil)

/-- `NOTEXIST [Object overlap(monads, substrate)]`, where the only object is of the monads 5
to 8. -/
def overlapInfo : ObjectBlockInfo Unit where
  obb := ⟨1, .kNoRetrieve⟩
  firstLast := .kNoFirstLast
  msrc := ⟨.kMSROOverlap, .kMSNSubstrate⟩
  featureConstraints := none
  hasNonParentORUs := false
  isAfterNonNOTEXISTInBlockString := false
  inst := [StartMonadInfo.rangeObject 8 5 8 (by decide)]

theorem one_le_nine : (1 : Int) ≤ 9 := by decide

/-- The monads from 1 to 9. -/
def nineMonads : SetOfMonads := StartMonadInfo.monadRange 1 9 one_le_nine

/-- The database of the object. -/
def overlapMonads : StartMonadEnv where
  allM1 := nineMonads
  ourMonadSet := fun _ => Lexer.bytes "monads"
  largestObjectLength := fun _ => 4
  blockStringHasOnlyNOTEXIST := fun _ => false

/-- The object's test. -/
def overlapStraws (U Su : SetOfMonads) : MonadedObject → Eval Unit (List Straw) :=
  objectStraws (wordEnv.withStartMonads overlapMonads) U Su overlapInfo true fun U Su =>
    Evaluator.rOptBlocks (wordEnv.withStartMonads overlapMonads)
      (fun _ => rBlocksOfUnorderedGroup) .null U Su maxMonad

/-- `R_block` at 1. -/
def overlapNotExist (Su : SetOfMonads) : Eval Unit (List Straw) :=
  Evaluator.rBlock (wordEnv.withStartMonads overlapMonads) (fun _ => rBlocksOfUnorderedGroup)
    (.objectBlockNOTEXIST (.mk overlapInfo .null)) nineMonads Su 1

theorem overlap_notExistInput : NotExistInput overlapMonads overlapInfo nineMonads nineMonads 1 := by
  obtain ⟨hrep, hmem⟩ :=
    StartMonadInfo.monadRange_repInv (by decide : (1 : Int) ≤ 9) (by decide) (by decide)
  obtain ⟨horep, homem⟩ :=
    StartMonadInfo.monadRange_repInv (by decide : (5 : Int) ≤ 8) (by decide) (by decide)
  refine ⟨by decide, by decide, hrep, hrep, by decide, Set.Subset.rfl, by decide, hrep, hmem,
    ⟨by decide, by decide⟩, List.pairwise_singleton _ _, fun o ho => ?_⟩
  rw [List.mem_singleton.mp ho]
  exact ⟨horep, by decide, by decide, by decide, by decide⟩

/-- In the whole range the object is found: `NOTEXIST` fails. -/
theorem rBlock_notExist_iff_range :
    ∃ los, (overlapNotExist nineMonads).run () = some (los, ()) ∧ los = [] ∧
      (los = [Straw.skipped 1] ↔
        ∀ o ∈ overlapInfo.inst, ¬ Gives (overlapStraws nineMonads nineMonads) () o) := by
  obtain ⟨los, _, hrun, hlos, -, hexact⟩ := @rBlock_notExist_iff Unit Unit Unit wordEnv
    (fun _ => rBlocksOfUnorderedGroup) overlapMonads nineMonads nineMonads 1 overlapInfo .null
    overlap_notExistInput () (overlapStraws nineMonads nineMonads) rfl (steady_unit fun o ho => by
      have hrun : ((overlapStraws nineMonads nineMonads
          (StartMonadInfo.rangeObject 8 5 8 (by decide))).run ()).isSome = true := by
        decide +kernel
      obtain ⟨⟨as, _⟩, has⟩ := Option.isSome_iff_exists.mp hrun
      rw [List.mem_singleton.mp ho]
      exact ⟨as, has⟩)
  have heval : ((overlapNotExist nineMonads).run ()).map (fun r => r.1.isEmpty)
      = some true := by decide +kernel
  obtain ⟨los', hrun', hempty⟩ := exists_run heval
  have hsame : los = los' := (Prod.mk.inj (Option.some.inj (hrun.symm.trans hrun'))).1
  exact ⟨los, hrun, hsame ▸ List.isEmpty_iff.mp hempty, hexact (Or.inr (by
    intro m hm
    exact overlap_notExistInput.range.symm.subset hm))⟩

theorem one_le_three : (1 : Int) ≤ 3 := by decide

/-- `{ 1-3, 7-9 }`. -/
def gappedMonads : SetOfMonads := ⟨[⟨1, 3, one_le_three⟩, ⟨7, 9, by decide⟩], 1, 9⟩

/-- With a gap in the substrate where the object starts, it is not found although it overlaps:
`NOTEXIST` succeeds. -/
theorem rBlock_notExist_misses :
    ∃ los, (overlapNotExist gappedMonads).run () = some (los, ()) ∧ los ≠ [] ∧
      ∃ o ∈ overlapInfo.inst, Gives (overlapStraws nineMonads gappedMonads) () o := by
  have heval : ((overlapNotExist gappedMonads).run ()).map (fun r => r.1.isEmpty)
      = some false := by decide +kernel
  obtain ⟨los, hrun, hlos⟩ := exists_run heval
  have hgives : ((overlapStraws nineMonads gappedMonads
      (StartMonadInfo.rangeObject 8 5 8 (by decide))).run ()).map (fun r => r.1.isEmpty)
        = some false := by decide +kernel
  obtain ⟨straws, hstraws, hne⟩ := exists_run hgives
  exact ⟨los, hrun, List.isEmpty_eq_false_iff.mp hlos, _, List.mem_singleton_self _,
    straws, (), hstraws, List.isEmpty_eq_false_iff.mp hne⟩

end Words

end Emdros
