/-
# The insts that have been made

`makeInst` makes an inst for a characteristic string once, and the blocks with this string borrow
it.  The invariant of the insts that have been made is `SoundInsts`: each has what its block needs,
whichever block with its string is meant.

There are two things to see.  The first is that an inst for a block with inner blocks may be made
from the monads that its innermost blocks have got, with short gaps between them filled: an object
that shares no monad with them cannot contain a match of an innermost block, and so nothing is lost
by leaving it out.  `makeInst` is shown to reach all that is needed.

The second is the borrowing.  A block borrows an inst that was made for another characteristic set
than its own; it may, because what it needs depends only on the insts of the innermost blocks
inside, and these are the same for both.  That is what is asked of the characteristic strings
(`Unambiguous`); they are made from names and constraints without marking where one ends, so that
two different blocks could have one string by accident.
-/
import Emdros.MQL.FewerObjects
import Emdros.Monads.FastStore

namespace Emdros

open Partial SpanList IntGaps

/-! ## 1. Fast sets -/

namespace FastSetOfMonads

variable {s s' : FastSetOfMonads}

theorem RepInv.unionWith (h : s.RepInv) (h' : s'.RepInv) :
    ∃ r, s.unionWith s' = some r ∧ r.RepInv ∧ r.mem = s.mem ∪ s'.mem := by
  obtain ⟨hrep, hmem⟩ := SetOfMonads.unionWith_spec h.set h'.set
  refine ⟨ofSetOfMonads (s.asSet.unionWith s'.asSet), ?_, repInv_ofSetOfMonads hrep, ?_⟩
  · rw [← unionWith_ofSetOfMonads h.set h'.set, ← h.eq_ofSetOfMonads, ← h'.eq_ofSetOfMonads]
  · rw [mem_ofSetOfMonads hrep, hmem]
    rfl

theorem RepInv.fillGaps (h : s.RepInv) (minGap : Int) :
    ∃ r, s.fillGaps minGap = some r ∧ r.RepInv ∧ r.mem = closeGaps minGap s.mem := by
  obtain ⟨r, hr, hrep, hmem⟩ := SetOfMonads.fillGaps_spec h.set minGap
  obtain ⟨r', hr', -, hfast⟩ := fillGaps_ofSetOfMonads h.set minGap
  obtain rfl := Option.some.inj (hr.symm.trans hr')
  refine ⟨ofSetOfMonads r, ?_, repInv_ofSetOfMonads hrep, ?_⟩
  · rw [← hfast, ← h.eq_ofSetOfMonads]
  · rw [mem_ofSetOfMonads hrep, hmem]
    rfl

theorem RepInv.add (h : s.RepInv) {first last : Int} (h₁ : 0 ≤ first) (h₂ : first ≤ last)
    (h₃ : last ≤ maxMonad) :
    ∃ r, s.add first last = some r ∧ r.RepInv ∧ r.mem = s.mem ∪ Set.Icc first last := by
  obtain ⟨hrep, hmem⟩ := SetOfMonads.addMSE_spec h.set
    (show SetOfMonads.InRange (⟨first, last, h₂⟩ : MonadSetElement) from ⟨h₁, h₃⟩)
  refine ⟨ofSetOfMonads (s.asSet.addMSE ⟨first, last, h₂⟩), ?_, repInv_ofSetOfMonads hrep, ?_⟩
  · rw [← add_ofSetOfMonads h.set h₁ h₂ h₃, ← h.eq_ofSetOfMonads]
  · rw [mem_ofSetOfMonads hrep, hmem]
    rfl

theorem RepInv.toSetOfMonads (h : s.RepInv) :
    s.toSetOfMonads.RepInv ∧ s.toSetOfMonads.mem = s.mem := by
  rw [h.eq_ofSetOfMonads, toSetOfMonads_ofSetOfMonads h.set, mem_ofSetOfMonads h.set]
  exact ⟨h.set, rfl⟩

theorem RepInv.isEmpty_iff (h : s.RepInv) : s.isEmpty = true ↔ s.mem = ∅ := by
  rw [h.eq_ofSetOfMonads, isEmpty_ofSetOfMonads h.set.sep, mem_ofSetOfMonads h.set,
    SetOfMonads.mem_eq_empty]
  exact SetOfMonads.isEmpty_iff

theorem mem_empty : FastSetOfMonads.empty.mem = ∅ := by
  rw [← ofSetOfMonads_empty, mem_ofSetOfMonads SetOfMonads.repInv_empty]
  exact SetOfMonads.mem_empty

end FastSetOfMonads

section Union

variable {allM1 : SetOfMonads}

theorem MonadedObject.IsIn.inRange {o : MonadedObject} (h : o.IsIn allM1) :
    0 ≤ o.first ∧ o.first ≤ o.last ∧ o.last ≤ maxMonad := by
  rw [h.first, h.last]
  exact ⟨(SetOfMonads.inRange_of_mem_cover h.repInv.inRange
      (h.repInv.isLeast_first h.ne_nil).1).1, h.repInv.first_le_last h.ne_nil,
    (SetOfMonads.inRange_of_mem_cover h.repInv.inRange
      (h.repInv.isGreatest_last h.ne_nil).1).2⟩

theorem foldlM_add : ∀ {inst : List MonadedObject} {s : FastSetOfMonads},
    (∀ o ∈ inst, o.IsIn allM1) → s.RepInv →
      ∃ r, inst.foldlM (fun result o => result.add o.first o.last) s = some r ∧ r.RepInv ∧
        ∀ m, m ∈ r.mem ↔ m ∈ s.mem ∨ ∃ o ∈ inst, m ∈ Set.Icc o.first o.last
  | [], s, _, hs => ⟨s, rfl, hs, fun m => by simp⟩
  | o :: inst, s, h, hs => by
    obtain ⟨h₁, h₂, h₃⟩ := (h o List.mem_cons_self).inRange
    obtain ⟨s', hs', hrep, hmem⟩ := hs.add h₁ h₂ h₃
    obtain ⟨r, hr, hrepr, hmemr⟩ := foldlM_add (fun o ho => h o (List.mem_cons_of_mem _ ho)) hrep
    refine ⟨r, ?_, hrepr, fun m => ?_⟩
    · rw [List.foldlM_cons, hs']
      exact hr
    · rw [hmemr, hmem, Set.mem_union, or_assoc, List.exists_mem_cons_iff]

theorem almostRealBigUnion_spec {inst : List MonadedObject} (h : ∀ o ∈ inst, o.IsIn allM1) :
    ∃ r, almostRealBigUnion inst = some r ∧ r.RepInv ∧
      ∀ m, m ∈ r.mem ↔ ∃ o ∈ inst, m ∈ Set.Icc o.first o.last := by
  obtain ⟨r, hr, hrep, hmem⟩ := foldlM_add h FastSetOfMonads.repInv_empty
  refine ⟨r, hr, hrep, fun m => ?_⟩
  rw [hmem, FastSetOfMonads.mem_empty]
  exact or_iff_right (Set.notMem_empty m)

theorem closeGaps_nonempty {k : Int} {A : Set Int} (h : (closeGaps k A).Nonempty) : A.Nonempty := by
  obtain ⟨m, hm | ⟨a, b, hgap, -⟩⟩ := h
  · exact ⟨m, hm⟩
  · exact ⟨_, hgap.before⟩

end Union

/-! ## 2. The insts that have been made -/

section SoundInsts

variable {C E : Type} (a : AggregateEnv C E)

/-- The inst that has been made for the characteristic string of a block. -/
def instOf (made : List UInt8 → Option (List MonadedObject)) (b : ObjectBlock C) :
    List MonadedObject :=
  (made (b.charString a)).getD []

/-- Two blocks ask for the same objects, and so do the innermost blocks inside. -/
structure SameRequest (b b' : ObjectBlock C) : Prop where
  candidates : a.candidates b.info = a.candidates b'.info
  monads : b.info.msrc.universeOrSubstrate = b'.info.msrc.universeOrSubstrate
  isInnermost : b.isInnermost = b'.isInnermost
  innermost : ∀ k, k ∈ b.innermost.map (·.charString a) ↔ k ∈ b'.innermost.map (·.charString a)

/-- Blocks with the same characteristic string ask for the same objects.  The strings of two
queries with an unordered group can be the same by accident. -/
def Unambiguous (bs : List (ObjectBlock C)) : Prop :=
  ∀ b ∈ bs, ∀ b' ∈ bs, b.charString a = b'.charString a → SameRequest a b b'

/-- Of the insts that have been made, each has what is needed of each block with its string. -/
structure SoundInsts (bs : List (ObjectBlock C)) (top : SetOfMonads)
    (made : List UInt8 → Option (List MonadedObject)) : Prop where
  narrowed : ∀ b ∈ bs, (made (b.charString a)).isSome → ∃ p : MonadedObject → Bool,
    instOf a made b = (a.candidates b.info).filter p ∧
      ∀ o ∈ a.candidates b.info, b.Needs (instOf a made) top o → p o = true
  innermost : ∀ b ∈ bs, (made (b.charString a)).isSome →
    ∀ l ∈ b.innermost, (made (l.charString a)).isSome
  nonempty : ∀ b ∈ bs, instOf a made b ≠ [] → ∃ l ∈ b.innermost, instOf a made l ≠ []

/-- What has been made stays. -/
def MadeStays (made made' : List UInt8 → Option (List MonadedObject)) : Prop :=
  ∀ k inst, made k = some inst → made' k = some inst

variable {a} {bs : List (ObjectBlock C)} {top : SetOfMonads}
  {made made' : List UInt8 → Option (List MonadedObject)} {b b' : ObjectBlock C}

theorem MadeStays.refl (made : List UInt8 → Option (List MonadedObject)) : MadeStays made made :=
  fun _ _ h => h

theorem MadeStays.trans {made'' : List UInt8 → Option (List MonadedObject)}
    (h : MadeStays made made') (h' : MadeStays made' made'') : MadeStays made made'' :=
  fun k inst hk => h' k inst (h k inst hk)

theorem MadeStays.instOf_eq (h : MadeStays made made') (hb : (made (b.charString a)).isSome) :
    instOf a made b = instOf a made' b := by
  obtain ⟨inst, hinst⟩ := Option.isSome_iff_exists.mp hb
  rw [instOf, instOf, hinst, h _ _ hinst]

theorem MadeStays.isSome (h : MadeStays made made') {k : List UInt8} (hk : (made k).isSome) :
    (made' k).isSome := by
  obtain ⟨inst, hinst⟩ := Option.isSome_iff_exists.mp hk
  rw [h _ _ hinst]
  rfl

theorem SameRequest.refl (b : ObjectBlock C) : SameRequest a b b :=
  ⟨rfl, rfl, rfl, fun _ => Iff.rfl⟩

theorem unambiguous_of_inj
    (h : ∀ b ∈ bs, ∀ b' ∈ bs, b.charString a = b'.charString a → b = b') : Unambiguous a bs := by
  intro b hb b' hb' heq
  rw [h b hb b' hb' heq]
  exact SameRequest.refl b'

theorem innermost_self : ∀ {b : ObjectBlock C}, b.isInnermost = true → b.innermost = [b]
  | .mk _ .null, _ => rfl

theorem ObjectBlock.mem_innermost_self (h : b.isInnermost = true) : b ∈ b.innermost :=
  List.mem_filter.mpr ⟨b.mem_objectBlocks_self, h⟩

/-- What is needed depends on the insts of the innermost blocks only. -/
theorem needs_congr (f f' : ObjectBlock C → List MonadedObject) (h : ∀ l ∈ b.innermost, f l = f' l)
    {o : MonadedObject} (hneeds : b.Needs f top o) : b.Needs f' top o := by
  rw [ObjectBlock.Needs] at hneeds ⊢
  split at hneeds
  · rename_i hinnermost
    rw [if_pos hinnermost]
    exact hneeds
  · rename_i hinnermost
    rw [if_neg hinnermost]
    obtain ⟨l, hl, o', ho', hmeets⟩ := hneeds
    exact ⟨l, hl, o', h l hl ▸ ho', hmeets⟩

theorem SameRequest.needs (h : SameRequest a b b') {o : MonadedObject}
    (hneeds : b'.Needs (instOf a made) top o) : b.Needs (instOf a made) top o := by
  rw [ObjectBlock.Needs] at hneeds ⊢
  rw [h.isInnermost]
  split at hneeds
  · rename_i hinnermost
    rw [if_pos hinnermost]
    rw [ObjectBlockInfo.reach] at hneeds ⊢
    rw [h.monads]
    exact hneeds
  · rename_i hinnermost
    rw [if_neg hinnermost]
    obtain ⟨l, hl, o', ho', hmeets⟩ := hneeds
    obtain ⟨l', hl', hk⟩ := List.mem_map.mp ((h.innermost _).mpr (List.mem_map_of_mem hl))
    refine ⟨l', hl', o', ?_, hmeets⟩
    rw [instOf, hk]
    exact ho'

/-- One more inst is made. -/
theorem SoundInsts.add (h : SoundInsts a bs top made) (hunambiguous : Unambiguous a bs)
    (hb : b ∈ bs) {p : MonadedObject → Bool} (hnew : made (b.charString a) = none)
    (hmade' : ∀ k, made' k =
      if k = b.charString a then some ((a.candidates b.info).filter p) else made k)
    (hneeds : ∀ o ∈ a.candidates b.info, b.Needs (instOf a made') top o → p o = true)
    (hinner : ∀ l ∈ b.innermost, (made' (l.charString a)).isSome)
    (hnonempty : instOf a made' b ≠ [] → ∃ l ∈ b.innermost, instOf a made' l ≠ []) :
    SoundInsts a bs top made' ∧ MadeStays made made' := by
  have hkeeps : MadeStays made made' := by
    intro k inst hk
    rw [hmade', if_neg (by rintro rfl; rw [hnew] at hk; cases hk), hk]
  have hold : ∀ b' ∈ bs, b'.charString a ≠ b.charString a → (made' (b'.charString a)).isSome →
      (made (b'.charString a)).isSome := by
    intro b' _ hne hsome
    rwa [hmade', if_neg hne] at hsome
  have hsame : ∀ b', b'.charString a = b.charString a → instOf a made' b' = instOf a made' b := by
    intro b' hk
    rw [instOf, instOf, hk]
  have hinst : instOf a made' b = (a.candidates b.info).filter p := by
    rw [instOf, hmade', if_pos rfl]
    rfl
  refine ⟨⟨fun b' hb' hsome => ?_, fun b' hb' hsome l hl => ?_, fun b' hb' hne => ?_⟩, hkeeps⟩
  · by_cases hk : b'.charString a = b.charString a
    · have hreq := hunambiguous b hb b' hb' hk.symm
      refine ⟨p, ?_, fun o ho hn => ?_⟩
      · rw [hsame b' hk, hinst, hreq.candidates]
      · rw [← hreq.candidates] at ho
        exact hneeds o ho (hreq.needs hn)
    · have hsome' := hold b' hb' hk hsome
      obtain ⟨p', hp', hkept⟩ := h.narrowed b' hb' hsome'
      refine ⟨p', ?_, fun o ho hn => hkept o ho (needs_congr _ _ (fun l hl => ?_) hn)⟩
      · rw [← hkeeps.instOf_eq hsome', hp']
      · exact (hkeeps.instOf_eq (h.innermost b' hb' hsome' l hl)).symm
  · by_cases hk : b'.charString a = b.charString a
    · have hreq := hunambiguous b hb b' hb' hk.symm
      obtain ⟨l', hl', hk'⟩ := List.mem_map.mp ((hreq.innermost _).mpr (List.mem_map_of_mem hl))
      rw [← hk']
      exact hinner l' hl'
    · exact hkeeps.isSome (h.innermost b' hb' (hold b' hb' hk hsome) l hl)
  · by_cases hk : b'.charString a = b.charString a
    · have hreq := hunambiguous b hb b' hb' hk.symm
      rw [hsame b' hk] at hne
      obtain ⟨l, hl, hlne⟩ := hnonempty hne
      obtain ⟨l', hl', hk'⟩ := List.mem_map.mp ((hreq.innermost _).mp (List.mem_map_of_mem hl))
      refine ⟨l', hl', ?_⟩
      rwa [instOf, hk', ← instOf]
    · have hmade : instOf a made' b' = instOf a made b' := by
        rw [instOf, instOf, hmade', if_neg hk]
      rw [hmade] at hne
      obtain ⟨l, hl, hlne⟩ := h.nonempty b' hb' hne
      refine ⟨l, hl, ?_⟩
      rwa [← hkeeps.instOf_eq]
      rw [Option.isSome_iff_ne_none]
      intro hnone
      rw [instOf, hnone] at hlne
      exact hlne rfl

/-- An inst has objects that its block asks for. -/
theorem SoundInsts.isIn {allM1 : SetOfMonads} (h : SoundInsts a bs top made) (hb : b ∈ bs)
    (hsome : (made (b.charString a)).isSome) (hobjects : ∀ o ∈ a.candidates b.info, o.IsIn allM1) :
    ∀ o ∈ instOf a made b, o.IsIn allM1 := by
  obtain ⟨p, hp, -⟩ := h.narrowed b hb hsome
  intro o ho
  rw [hp] at ho
  exact hobjects o (List.mem_filter.mp ho).1

end SoundInsts

/-! ## 3. Making one inst -/

section MakeInst

variable {C E : Type} {a : AggregateEnv C E} {bs : List (ObjectBlock C)} {top Su Su' : SetOfMonads}
  {b : ObjectBlock C} {mmap : MMap}

/-- The insts that have been made, by the strings of their blocks. -/
def MMap.made (mmap : MMap) (k : List UInt8) : Option (List MonadedObject) := mmap.lookup k

theorem made_append_new {k : List UInt8} (inst : List MonadedObject)
    (hnew : mmap.made k = none) (k' : List UInt8) :
    (mmap ++ [(k, inst)]).made k' = if k' = k then some inst else mmap.made k' := by
  rw [MMap.made, MMap.made, List.lookup_append]
  by_cases hk : k' = k
  · subst hk
    rw [if_pos rfl, ← MMap.made, hnew, List.lookup_cons_self]
    rfl
  · rw [if_neg hk, List.lookup_cons, beq_false_of_ne hk]
    exact Option.or_none

theorem made_append_old {k : List UInt8} {inst : List MonadedObject}
    (hold : (mmap.made k).isSome) : (mmap ++ [(k, inst)]).made = mmap.made := by
  funext k'
  rw [MMap.made, MMap.made, List.lookup_append]
  by_cases hk : k' = k
  · subst hk
    obtain ⟨inst', hinst'⟩ := Option.isSome_iff_exists.mp hold
    rw [← MMap.made, hinst']
    rfl
  · rw [List.lookup_cons, beq_false_of_ne hk]
    exact Option.or_none

theorem mem_subset_reach (hSu : Su.RepInv) (info : ObjectBlockInfo C) :
    Su.mem ⊆ info.reach Su := by
  rw [ObjectBlockInfo.reach]
  cases info.msrc.universeOrSubstrate with
  | kMSNSubstrate => exact subset_rfl
  | kMSNUniverse => exact fun m hm => ⟨hSu.mem_bounds.1 hm, hSu.mem_bounds.2 hm⟩

theorem reach_mono (hSu : Su.RepInv) (hne : Su.mem.Nonempty) (hSu' : Su'.RepInv)
    (h : Su.mem ⊆ Su'.mem) (info : ObjectBlockInfo C) : info.reach Su ⊆ info.reach Su' := by
  obtain ⟨m, hm⟩ := hne
  have hSune := StartMonadInfo.ne_nil_of_mem hm
  rw [ObjectBlockInfo.reach, ObjectBlockInfo.reach]
  cases info.msrc.universeOrSubstrate with
  | kMSNSubstrate => exact h
  | kMSNUniverse =>
    exact Set.Icc_subset_Icc (hSu'.mem_bounds.1 (h (hSu.isLeast_first hSune).1))
      (hSu'.mem_bounds.2 (h (hSu.isGreatest_last hSune).1))

/-- `R_inst` keeps what meets the set. -/
theorem rInst_spec (hSu : Su.RepInv) (hne : Su.mem.Nonempty) (info : ObjectBlockInfo C) :
    ∃ cs : SetOfMonads, cs.RepInv ∧ cs.mem = info.reach Su ∧ a.rInst info Su
      = some ((a.candidates info).filter fun o => SetOfMonads.overlap o.monads cs) := by
  unfold AggregateEnv.rInst ObjectBlockInfo.reach
  cases info.msrc.universeOrSubstrate with
  | kMSNSubstrate => exact ⟨Su, hSu, rfl, rfl⟩
  | kMSNUniverse =>
    obtain ⟨m, hm⟩ := hne
    obtain ⟨U, hU, hrep, hmem⟩ := exists_range hSu (StartMonadInfo.ne_nil_of_mem hm)
    refine ⟨U, hrep, hmem, ?_⟩
    dsimp only
    rw [hU]
    rfl

theorem makeInst_of_some {info : ObjectBlockInfo C} {k : List UInt8} {inst : List MonadedObject}
    (h : mmap.made k = some inst) : (a.makeInst info k Su).run mmap = some (inst, mmap) := by
  unfold AggregateEnv.makeInst
  rw [run_bind_of_some (show (get : StateT MMap Option MMap).run mmap = some (mmap, mmap) from rfl),
    ← MMap.made, h]
  rfl

theorem makeInst_of_none {info : ObjectBlockInfo C} {k : List UInt8} {inst : List MonadedObject}
    (h : mmap.made k = none) (hinst : a.rInst info Su = some inst) :
    (a.makeInst info k Su).run mmap = some (inst, mmap ++ [(k, inst)]) := by
  unfold AggregateEnv.makeInst
  rw [run_bind_of_some (show (get : StateT MMap Option MMap).run mmap = some (mmap, mmap) from rfl),
    ← MMap.made, h]
  dsimp only
  rw [run_bind_of_some (run_ofOption_some hinst mmap)]
  rfl

/-- The inst of the block has been made, and the others have been kept. -/
structure Recorded (a : AggregateEnv C E) (bs : List (ObjectBlock C)) (top : SetOfMonads)
    (made made' : List UInt8 → Option (List MonadedObject)) (b : ObjectBlock C) : Prop where
  sound : SoundInsts a bs top made'
  keeps : MadeStays made made'
  made : (made' (b.charString a)).isSome

/-- **`makeInst`** for a block whose innermost blocks have their insts, if the set reaches what is
needed. -/
theorem makeInst_run {allM1 : SetOfMonads} (h : SoundInsts a bs top mmap.made)
    (hunambiguous : Unambiguous a bs) (hb : b ∈ bs)
    (hobjects : ∀ o ∈ a.candidates b.info, o.IsIn allM1) (hSu : Su.RepInv) (hne : Su.mem.Nonempty)
    (hneeds : ∀ f : ObjectBlock C → List MonadedObject,
      (∀ l ∈ b.innermost, (mmap.made (l.charString a)).isSome → f l = instOf a mmap.made l) →
        ∀ o, b.Needs f top o → (o.monads.mem ∩ b.info.reach Su).Nonempty)
    (hinner : ∀ l ∈ b.innermost,
      l.charString a = b.charString a ∨ (mmap.made (l.charString a)).isSome)
    (hnonempty : ∃ l ∈ b.innermost,
      l.charString a = b.charString a ∨ instOf a mmap.made l ≠ []) :
    ∃ mmap', (a.makeInst b.info (b.charString a) Su).run mmap
        = some (instOf a mmap'.made b, mmap') ∧
      Recorded a bs top mmap.made mmap'.made b := by
  cases hk : mmap.made (b.charString a) with
  | some inst =>
    refine ⟨mmap, ?_, h, .refl _, hk ▸ rfl⟩
    rw [makeInst_of_some hk, instOf, hk]
    rfl
  | none =>
    obtain ⟨cs, hcs, hreach, hinst⟩ := rInst_spec (a := a) hSu hne b.info
    obtain ⟨mmap', hmmap'⟩ : ∃ mmap' : MMap, mmap' = mmap ++ [(b.charString a,
      (a.candidates b.info).filter fun o => SetOfMonads.overlap o.monads cs)] := ⟨_, rfl⟩
    have hmade' : ∀ k, mmap'.made k = if k = b.charString a then
        some ((a.candidates b.info).filter fun o => SetOfMonads.overlap o.monads cs)
        else mmap.made k := by
      rw [hmmap']
      exact made_append_new _ hk
    have hself : instOf a mmap'.made b
        = (a.candidates b.info).filter fun o => SetOfMonads.overlap o.monads cs := by
      rw [instOf, hmade', if_pos rfl, Option.getD_some]
    have hsome : ∀ k, k = b.charString a ∨ (mmap.made k).isSome → (mmap'.made k).isSome := by
      intro k hor
      rw [hmade']
      split
      · rfl
      · exact hor.resolve_left ‹_›
    have hkept : ∀ o ∈ a.candidates b.info, b.Needs (instOf a mmap'.made) top o →
        SetOfMonads.overlap o.monads cs = true := by
      intro o ho hn
      rw [SetOfMonads.overlap_iff (hobjects o ho).repInv hcs, hreach]
      refine hneeds _ (fun l _ hl => ?_) o hn
      rw [instOf, instOf, hmade', if_neg]
      intro heq
      rw [heq, hk] at hl
      cases hl
    have hnonempty' : instOf a mmap'.made b ≠ [] →
        ∃ l ∈ b.innermost, instOf a mmap'.made l ≠ [] := by
      intro hne'
      obtain ⟨l, hl, hor⟩ := hnonempty
      refine ⟨l, hl, ?_⟩
      by_cases heq : l.charString a = b.charString a
      · rwa [instOf, heq, ← instOf]
      · rw [instOf, hmade', if_neg heq]
        exact hor.resolve_left heq
    obtain ⟨hsound, hkeeps⟩ := h.add hunambiguous hb hk hmade' hkept
      (fun l hl => hsome _ (hinner l hl)) hnonempty'
    refine ⟨mmap', ?_, hsound, hkeeps, hsome _ (Or.inl rfl)⟩
    rw [makeInst_of_none hk hinst, hself, hmmap']

/-- An empty inst, if the innermost blocks have nothing. -/
theorem recordEmpty (h : SoundInsts a bs top mmap.made) (hunambiguous : Unambiguous a bs)
    (hb : b ∈ bs) (hinnermost : b.isInnermost = false)
    (hinner : ∀ l ∈ b.innermost, (mmap.made (l.charString a)).isSome)
    (hempty : ∀ l ∈ b.innermost, instOf a mmap.made l = []) :
    instOf a (mmap ++ [(b.charString a, [])]).made b = [] ∧
      Recorded a bs top mmap.made (mmap ++ [(b.charString a, [])]).made b := by
  cases hk : mmap.made (b.charString a) with
  | some inst =>
    rw [made_append_old (hk ▸ rfl)]
    refine ⟨?_, h, .refl _, hk ▸ rfl⟩
    by_contra hne
    obtain ⟨l, hl, hlne⟩ := h.nonempty b hb hne
    exact hlne (hempty l hl)
  | none =>
    have hmade' := made_append_new [] hk
    have hinst : instOf a (mmap ++ [(b.charString a, [])]).made b = [] := by
      rw [instOf, hmade', if_pos rfl]
      rfl
    have hkept : ∀ l ∈ b.innermost,
        (mmap ++ [(b.charString a, [])]).made (l.charString a) = mmap.made (l.charString a) := by
      intro l hl
      rw [hmade', if_neg]
      intro heq
      have := hinner l hl
      rw [heq, hk] at this
      cases this
    have hnothing : (a.candidates b.info).filter (fun _ => false) = [] := List.filter_false _
    have hneeds : ∀ o ∈ a.candidates b.info,
        ¬ b.Needs (instOf a (mmap ++ [(b.charString a, [])]).made) top o := by
      intro o _ hn
      rw [ObjectBlock.Needs, if_neg (by rw [hinnermost]; exact Bool.false_ne_true)] at hn
      obtain ⟨l, hl, o', ho', -⟩ := hn
      rw [instOf, hkept l hl, ← instOf, hempty l hl] at ho'
      cases ho'
    obtain ⟨hsound, hkeeps⟩ := h.add hunambiguous hb (p := fun _ => false) hk
      (by rw [hnothing]; exact hmade') (fun o ho hn => absurd hn (hneeds o ho))
      (fun l hl => by rw [hkept l hl]; exact hinner l hl) (fun hne => absurd hinst hne)
    refine ⟨hinst, hsound, hkeeps, ?_⟩
    rw [hmade', if_pos rfl]
    rfl

end MakeInst

end Emdros
