/-
# Innermost first (`aggregateQuery` in `mql_query.cpp`)

Before a query is evaluated its object blocks are given their insts.  With the strategy that begins
with the innermost blocks, these are asked for in all of the substrate; a block with inner blocks is
asked for only around what its inner blocks have got, and if that is nothing it gets an empty inst.

A part of a query takes sound insts to sound insts, makes those of its own blocks, and returns the
monads of what its innermost blocks have got (`AggregatesTo`).  There is one rule for each way of
putting parts together, and the recursion over the query uses them by name.

So the insts that `aggregateQuery` makes leave out only what has no part in an answer, and the query
answers what it would with all objects of the database in its insts
(`selectQuery_innermostFirst`).  What it would answer then is not said by another evaluation, but by
the meaning of its blocks (`Meaning`).  The objects that an inst is made of are a list here;
`RetrievedInsts` compares it with what the database gives.
-/
import Emdros.MQL.MadeInsts

namespace Emdros

open Partial SpanList IntGaps

/-! ## 1. The whole query -/

section Run

variable {C E β γ δ : Type} (a : AggregateEnv C E) (bs : List (ObjectBlock C)) (top : SetOfMonads)

/-- The set has the objects of the innermost blocks, and something only if there are some. -/
structure CoversInnermost (made : List UInt8 → Option (List MonadedObject))
    (part : List (ObjectBlock C)) (cs : FastSetOfMonads) : Prop where
  repInv : cs.RepInv
  subset : ∀ l ∈ part, l.isInnermost = true → ∀ o ∈ instOf a made l,
    Set.Icc o.first o.last ⊆ cs.mem
  nonempty : cs.mem.Nonempty → ∃ l ∈ part, l.isInnermost = true ∧ instOf a made l ≠ []

/-- What a part of the query does to the insts that have been made. -/
structure Aggregated (made made' : List UInt8 → Option (List MonadedObject))
    (part : List (ObjectBlock C)) (cs : FastSetOfMonads) : Prop where
  sound : SoundInsts a bs top made'
  keeps : MadeStays made made'
  made : ∀ b ∈ part, (made' (b.charString a)).isSome
  covers : CoversInnermost a made' part cs

/-- From sound insts the computation goes on to sound insts, and it returns what the innermost
blocks of the part have got, and the part with its insts. -/
def AggregatesTo (x : StateT MMap Option (FastSetOfMonads × β)) (part : List (ObjectBlock C))
    (result : (ObjectBlock C → List MonadedObject) → β) : Prop :=
  ∀ mmap : MMap, SoundInsts a bs top mmap.made → ∃ (mmap' : MMap) (cs : FastSetOfMonads),
    x.run mmap = some ((cs, result (instOf a mmap'.made)), mmap') ∧
      Aggregated a bs top mmap.made mmap'.made part cs

variable {a bs top}

theorem CoversInnermost.of_keeps {made made' : List UInt8 → Option (List MonadedObject)}
    {part : List (ObjectBlock C)} {cs : FastSetOfMonads} (h : CoversInnermost a made part cs)
    (hkeeps : MadeStays made made') (hmade : ∀ b ∈ part, (made (b.charString a)).isSome) :
    CoversInnermost a made' part cs where
  repInv := h.repInv
  subset l hl hinnermost o ho := by
    rw [← hkeeps.instOf_eq (hmade l hl)] at ho
    exact h.subset l hl hinnermost o ho
  nonempty hne := by
    obtain ⟨l, hl, hinnermost, hlne⟩ := h.nonempty hne
    refine ⟨l, hl, hinnermost, ?_⟩
    rwa [← hkeeps.instOf_eq (hmade l hl)]

theorem CoversInnermost.union {made : List UInt8 → Option (List MonadedObject)}
    {part part' : List (ObjectBlock C)} {cs cs' : FastSetOfMonads}
    (h : CoversInnermost a made part cs) (h' : CoversInnermost a made part' cs') :
    ∃ r, cs.unionWith cs' = some r ∧ CoversInnermost a made (part ++ part') r := by
  obtain ⟨r, hr, hrep, hmem⟩ := h.repInv.unionWith h'.repInv
  refine ⟨r, hr, hrep, fun l hl hinnermost o ho => ?_, fun hne => ?_⟩
  · rw [hmem]
    rcases List.mem_append.mp hl with hl | hl
    · exact (h.subset l hl hinnermost o ho).trans Set.subset_union_left
    · exact (h'.subset l hl hinnermost o ho).trans Set.subset_union_right
  · rw [hmem] at hne
    rcases Set.union_nonempty.mp hne with hne | hne
    · obtain ⟨l, hl, hrest⟩ := h.nonempty hne
      exact ⟨l, List.mem_append_left _ hl, hrest⟩
    · obtain ⟨l, hl, hrest⟩ := h'.nonempty hne
      exact ⟨l, List.mem_append_right _ hl, hrest⟩

theorem covers_empty (made : List UInt8 → Option (List MonadedObject)) :
    CoversInnermost a made [] FastSetOfMonads.empty where
  repInv := FastSetOfMonads.repInv_empty
  subset l hl := absurd hl List.not_mem_nil
  nonempty hne := by
    rw [FastSetOfMonads.mem_empty] at hne
    exact absurd hne Set.not_nonempty_empty

/-- The union with the empty set. -/
theorem CoversInnermost.emptyUnion {made : List UInt8 → Option (List MonadedObject)}
    {part : List (ObjectBlock C)} {cs : FastSetOfMonads} (h : CoversInnermost a made part cs) :
    ∃ r, FastSetOfMonads.empty.unionWith cs = some r ∧ CoversInnermost a made part r :=
  (covers_empty made).union h

namespace AggregatesTo

variable {x : StateT MMap Option (FastSetOfMonads × β)}
  {y : StateT MMap Option (FastSetOfMonads × γ)} {part part' : List (ObjectBlock C)}
  {result : (ObjectBlock C → List MonadedObject) → β}
  {result' : (ObjectBlock C → List MonadedObject) → γ}

/-- Nothing is made. -/
theorem pure (c : β) : AggregatesTo a bs top
    (Pure.pure (FastSetOfMonads.empty, c) : StateT MMap Option (FastSetOfMonads × β)) []
    fun _ => c :=
  fun mmap h => ⟨mmap, .empty, rfl, h, .refl _, fun _ hb => absurd hb List.not_mem_nil,
    covers_empty _⟩

theorem map (h : AggregatesTo a bs top x part result) (g : β → γ) :
    AggregatesTo a bs top (x >>= fun r => Pure.pure (r.1, g r.2)) part fun f => g (result f) := by
  intro mmap hmmap
  obtain ⟨mmap', cs, hrun, hagg⟩ := h mmap hmmap
  exact ⟨mmap', cs, by rw [run_bind_of_some hrun]; rfl, hagg⟩

/-- What it returns is joined to the empty set. -/
theorem union (h : AggregatesTo a bs top x part result) (g : β → γ) :
    AggregatesTo a bs top (x >>= fun r => do
      let cs ← ofOption (FastSetOfMonads.empty.unionWith r.1)
      Pure.pure (cs, g r.2)) part fun f => g (result f) := by
  intro mmap hmmap
  obtain ⟨mmap', cs, hrun, hagg⟩ := h mmap hmmap
  obtain ⟨r, hr, hcovers⟩ := hagg.covers.emptyUnion
  refine ⟨mmap', r, ?_, hagg.sound, hagg.keeps, hagg.made, hcovers⟩
  rw [run_bind_of_some hrun, run_bind_of_some (run_ofOption_some hr mmap')]
  rfl

/-- Two parts after each other. -/
theorem step (h : AggregatesTo a bs top x part result)
    (h' : AggregatesTo a bs top y part' result')
    (hcongr : ∀ f f', (∀ b ∈ part, f b = f' b) → result f = result f') {mmap : MMap}
    (hmmap : SoundInsts a bs top mmap.made) :
    ∃ (mmap₁ mmap₂ : MMap) (cs₁ cs₂ : FastSetOfMonads),
      x.run mmap = some ((cs₁, result (instOf a mmap₂.made)), mmap₁) ∧
      y.run mmap₁ = some ((cs₂, result' (instOf a mmap₂.made)), mmap₂) ∧
      CoversInnermost a mmap₂.made part cs₁ ∧ CoversInnermost a mmap₂.made part' cs₂ ∧
      SoundInsts a bs top mmap₂.made ∧ MadeStays mmap.made mmap₂.made ∧
      ∀ b ∈ part ++ part', (mmap₂.made (b.charString a)).isSome := by
  obtain ⟨mmap₁, cs₁, hrun₁, hagg₁⟩ := h mmap hmmap
  obtain ⟨mmap₂, cs₂, hrun₂, hagg₂⟩ := h' mmap₁ hagg₁.sound
  refine ⟨mmap₁, mmap₂, cs₁, cs₂, ?_, hrun₂, hagg₁.covers.of_keeps hagg₂.keeps hagg₁.made,
    hagg₂.covers, hagg₂.sound, hagg₁.keeps.trans hagg₂.keeps, fun b hb => ?_⟩
  · rw [hrun₁, hcongr _ _ fun b hb => hagg₂.keeps.instOf_eq (hagg₁.made b hb)]
  · rcases List.mem_append.mp hb with hb | hb
    · exact hagg₂.keeps.isSome (hagg₁.made b hb)
    · exact hagg₂.made b hb

/-- The set that each returns is joined before the next. -/
theorem sequence (h : AggregatesTo a bs top x part result)
    (h' : AggregatesTo a bs top y part' result')
    (hcongr : ∀ f f', (∀ b ∈ part, f b = f' b) → result f = result f') (g : β → γ → δ) :
    AggregatesTo a bs top (x >>= fun r => do
      let cs ← ofOption (FastSetOfMonads.empty.unionWith r.1)
      y >>= fun r' => do
        let cs ← ofOption (cs.unionWith r'.1)
        Pure.pure (cs, g r.2 r'.2)) (part ++ part') fun f => g (result f) (result' f) := by
  intro mmap hmmap
  obtain ⟨mmap₁, mmap₂, cs₁, cs₂, hrun₁, hrun₂, hcovers₁, hcovers₂, hsound, hkeeps, hmade⟩ :=
    h.step h' hcongr hmmap
  obtain ⟨r₁, hr₁, hcovers₁'⟩ := hcovers₁.emptyUnion
  obtain ⟨r₂, hr₂, hcovers⟩ := hcovers₁'.union hcovers₂
  refine ⟨mmap₂, r₂, ?_, hsound, hkeeps, hmade, hcovers⟩
  rw [run_bind_of_some hrun₁, run_bind_of_some (run_ofOption_some hr₁ mmap₁),
    run_bind_of_some hrun₂, run_bind_of_some (run_ofOption_some hr₂ mmap₂)]
  rfl

/-- The sets are joined at the end. -/
theorem append (h : AggregatesTo a bs top x part result)
    (h' : AggregatesTo a bs top y part' result')
    (hcongr : ∀ f f', (∀ b ∈ part, f b = f' b) → result f = result f') (g : β → γ → δ) :
    AggregatesTo a bs top (x >>= fun r => y >>= fun r' => do
      let cs ← ofOption (FastSetOfMonads.empty.unionWith r.1)
      let cs ← ofOption (cs.unionWith r'.1)
      Pure.pure (cs, g r.2 r'.2)) (part ++ part') fun f => g (result f) (result' f) := by
  intro mmap hmmap
  obtain ⟨mmap₁, mmap₂, cs₁, cs₂, hrun₁, hrun₂, hcovers₁, hcovers₂, hsound, hkeeps, hmade⟩ :=
    h.step h' hcongr hmmap
  obtain ⟨r₁, hr₁, hcovers₁'⟩ := hcovers₁.emptyUnion
  obtain ⟨r₂, hr₂, hcovers⟩ := hcovers₁'.union hcovers₂
  refine ⟨mmap₂, r₂, ?_, hsound, hkeeps, hmade, hcovers⟩
  rw [run_bind_of_some hrun₁, run_bind_of_some hrun₂,
    run_bind_of_some (run_ofOption_some hr₁ mmap₂), run_bind_of_some (run_ofOption_some hr₂ mmap₂)]
  rfl

end AggregatesTo

theorem CoversInnermost.around {made : List UInt8 → Option (List MonadedObject)}
    {part : List (ObjectBlock C)} {cs cs' : FastSetOfMonads} {b : ObjectBlock C}
    (h : CoversInnermost a made part cs) (hb : b.isInnermost = false) (hrep : cs'.RepInv)
    (hsub : cs.mem ⊆ cs'.mem) (hne : cs'.mem.Nonempty → cs.mem.Nonempty) :
    CoversInnermost a made (part ++ [b]) cs' where
  repInv := hrep
  subset l hl hinnermost o ho := by
    rcases List.mem_append.mp hl with hl | hl
    · exact (h.subset l hl hinnermost o ho).trans hsub
    · rw [List.mem_singleton.mp hl, hb] at hinnermost
      cases hinnermost
  nonempty hne' := by
    obtain ⟨l, hl, hrest⟩ := h.nonempty (hne hne')
    exact ⟨l, List.mem_append_left _ hl, hrest⟩

theorem mem_innermost_blocks {info : ObjectBlockInfo C} {inner : Blocks C} {l : ObjectBlock C} :
    l ∈ (ObjectBlock.mk info (.blocks inner)).innermost ↔
      l ∈ inner.objectBlocks ∧ l.isInnermost = true := by
  rw [ObjectBlock.innermost, List.mem_filter, ObjectBlock.objectBlocks, OptBlocks.objectBlocks,
    List.mem_append, List.mem_singleton]
  constructor
  · rintro ⟨hl | rfl, hinnermost⟩
    · exact ⟨hl, hinnermost⟩
    · cases hinnermost
  · rintro ⟨hl, hinnermost⟩
    exact ⟨Or.inl hl, hinnermost⟩

section Strategy

variable {allM1 : SetOfMonads} {hasORU : C → Bool}

/-- What is known of the blocks of a query and its substrate before the insts are made. -/
structure Prepared (a : AggregateEnv C E) (bs : List (ObjectBlock C)) (top allM1 : SetOfMonads) :
    Prop where
  unambiguous : Unambiguous a bs
  objects : ∀ b ∈ bs, ∀ o ∈ a.candidates b.info, o.IsIn allM1
  repInv : top.RepInv
  nonempty : top.mem.Nonempty

/-- A block without inner blocks gets what meets the substrate. -/
theorem aggregateWithout_run (h : Prepared a bs top allM1) {info : ObjectBlockInfo C}
    (hb : ObjectBlock.mk info .null ∈ bs) (lola : Int) :
    AggregatesTo a bs top
      (a.aggregateWithout info ((ObjectBlock.mk info .null).charString a) .empty top lola)
      [.mk info .null] fun f => f (.mk info .null) := by
  intro mmap hmmap
  obtain ⟨Su, hSu, hSurep, hSumem⟩ := SetOfMonads.fillGaps_spec h.repInv lola
  have hsubset : top.mem ⊆ Su.mem := by
    rw [hSumem]
    exact subset_closeGaps
  have hself : ∀ l ∈ (ObjectBlock.mk info .null).innermost, l = .mk info .null := fun l hl =>
    List.mem_singleton.mp (innermost_self (b := .mk info .null) rfl ▸ hl)
  have hneeds : ∀ o, (ObjectBlock.mk info .null).Needs (fun _ => []) top o →
      (o.monads.mem ∩ info.reach Su).Nonempty := by
    intro o hn
    rw [ObjectBlock.Needs, if_pos (by exact rfl)] at hn
    exact hn.mono (Set.inter_subset_inter_right _ (reach_mono h.repInv h.nonempty hSurep hsubset _))
  obtain ⟨mmap', hrun, hrec⟩ := makeInst_run hmmap h.unambiguous hb (h.objects _ hb) hSurep
    (h.nonempty.mono hsubset) (fun _ _ o hn => hneeds o hn)
    (fun l hl => Or.inl (by rw [hself l hl])) ⟨_, ObjectBlock.mem_innermost_self rfl, Or.inl rfl⟩
  have hin := hrec.sound.isIn hb hrec.made (h.objects _ hb)
  obtain ⟨CS1, hCS1, hCS1rep, hCS1mem⟩ := almostRealBigUnion_spec hin
  obtain ⟨filled, hfilled, hfilledrep, hfilledmem⟩ := hCS1rep.fillGaps lola
  have hcovers : CoversInnermost a mmap'.made [.mk info .null] filled := by
    refine ⟨hfilledrep, fun l hl _ o ho m hm => ?_, fun hne' => ?_⟩
    · rw [List.mem_singleton.mp hl] at ho
      rw [hfilledmem]
      exact subset_closeGaps ((hCS1mem m).mpr ⟨o, ho, hm⟩)
    · rw [hfilledmem] at hne'
      obtain ⟨m, hm⟩ := closeGaps_nonempty hne'
      obtain ⟨o, ho, -⟩ := (hCS1mem m).mp hm
      exact ⟨_, List.mem_singleton_self _, rfl, List.ne_nil_of_mem ho⟩
  obtain ⟨r, hr, hcovers'⟩ := hcovers.emptyUnion
  refine ⟨mmap', r, ?_, hrec.sound, hrec.keeps, fun b hb' => ?_, hcovers'⟩
  · unfold AggregateEnv.aggregateWithout
    rw [run_bind_of_some (run_ofOption_some hSu mmap)]
    refine (run_bind_of_some hrun).trans ?_
    rw [run_bind_of_some (run_ofOption_some hCS1 mmap'),
      run_bind_of_some (run_ofOption_some hfilled mmap'),
      run_bind_of_some (run_ofOption_some hr mmap')]
    rfl
  · rw [List.mem_singleton.mp hb']
    exact hrec.made

/-- A block with inner blocks gets what meets what they have got. -/
theorem aggregateWith_run (h : Prepared a bs top allM1) {info : ObjectBlockInfo C}
    {inner : Blocks C} (hb : ObjectBlock.mk info (.blocks inner) ∈ bs)
    (hbs : ∀ l ∈ inner.objectBlocks, l ∈ bs)
    {mmap : MMap} (hmmap : SoundInsts a bs top mmap.made) {CS : FastSetOfMonads}
    (hmade : ∀ l ∈ inner.objectBlocks, (mmap.made (l.charString a)).isSome)
    (hcovers : CoversInnermost a mmap.made inner.objectBlocks CS) (lola : Int) :
    ∃ (mmap' : MMap) (cs : FastSetOfMonads),
      (a.aggregateWith info ((ObjectBlock.mk info (.blocks inner)).charString a) .empty CS lola).run
          mmap = some ((cs, instOf a mmap'.made (.mk info (.blocks inner))), mmap') ∧
        Aggregated a bs top mmap.made mmap'.made
          (inner.objectBlocks ++ [.mk info (.blocks inner)]) cs := by
  have hinner : ∀ l ∈ (ObjectBlock.mk info (.blocks inner)).innermost,
      (mmap.made (l.charString a)).isSome := fun l hl => hmade l (mem_innermost_blocks.mp hl).1
  have hall : ∀ {mmap' : MMap}, Recorded a bs top mmap.made mmap'.made (.mk info (.blocks inner)) →
      ∀ b ∈ inner.objectBlocks ++ [.mk info (.blocks inner)],
        (mmap'.made (b.charString a)).isSome := by
    intro mmap' hrec b hb'
    rcases List.mem_append.mp hb' with hb' | hb'
    · exact hrec.keeps.isSome (hmade b hb')
    · rw [List.mem_singleton.mp hb']
      exact hrec.made
  unfold AggregateEnv.aggregateWith
  by_cases hempty : CS.isEmpty = true
  · have hCS := hcovers.repInv.isEmpty_iff.mp hempty
    obtain ⟨hinst, hrec⟩ := recordEmpty hmmap h.unambiguous hb rfl hinner fun l hl => by
      obtain ⟨hl', hinnermost⟩ := mem_innermost_blocks.mp hl
      refine List.eq_nil_iff_forall_not_mem.mpr fun o ho => ?_
      have hin := hmmap.isIn (hbs l hl') (hmade l hl') (h.objects l (hbs l hl')) o ho
      have hfirst := hcovers.subset l hl' hinnermost o ho ⟨le_rfl, hin.inRange.2.1⟩
      rw [hCS] at hfirst
      exact hfirst
    rw [if_pos hempty]
    refine ⟨_, CS, ?_, hrec.sound, hrec.keeps, hall hrec, ?_⟩
    · rw [hinst]
      rfl
    · exact (hcovers.of_keeps hrec.keeps hmade).around rfl hcovers.repInv subset_rfl id
  · have hCSne : CS.mem.Nonempty := by
      rw [Set.nonempty_iff_ne_empty]
      exact mt hcovers.repInv.isEmpty_iff.mpr hempty
    rw [if_neg hempty]
    obtain ⟨CS', hCS', hCS'rep, hCS'mem⟩ := hcovers.repInv.fillGaps lola
    obtain ⟨hSurep, hSumem⟩ := hCS'rep.toSetOfMonads
    have hsubset : CS.mem ⊆ CS'.mem := by
      rw [hCS'mem]
      exact subset_closeGaps
    obtain ⟨l, hl, hinnermost, hlne⟩ := hcovers.nonempty hCSne
    have hneeds : ∀ f : ObjectBlock C → List MonadedObject,
        (∀ l ∈ (ObjectBlock.mk info (.blocks inner)).innermost,
          (mmap.made (l.charString a)).isSome → f l = instOf a mmap.made l) →
        ∀ o, (ObjectBlock.mk info (.blocks inner)).Needs f top o →
          (o.monads.mem ∩ info.reach CS'.toSetOfMonads).Nonempty := by
      intro f hf o hn
      rw [ObjectBlock.Needs, if_neg (by exact Bool.false_ne_true)] at hn
      obtain ⟨l, hl, o', ho', hmeets⟩ := hn
      obtain ⟨hl', hinnermost'⟩ := mem_innermost_blocks.mp hl
      rw [hf l hl (hinner l hl)] at ho'
      refine hmeets.mono (Set.inter_subset_inter_right _ ?_)
      refine ((hcovers.subset l hl' hinnermost' o' ho').trans hsubset).trans ?_
      rw [← hSumem]
      exact mem_subset_reach hSurep _
    obtain ⟨mmap', hrun, hrec⟩ := makeInst_run hmmap h.unambiguous hb (h.objects _ hb) hSurep
      (by rw [hSumem]; exact hCSne.mono hsubset) hneeds (fun l hl => Or.inr (hinner l hl))
      ⟨l, mem_innermost_blocks.mpr ⟨hl, hinnermost⟩, Or.inr hlne⟩
    have hin := hrec.sound.isIn hb hrec.made (h.objects _ hb)
    obtain ⟨CS1, hCS1, hCS1rep, -⟩ := almostRealBigUnion_spec hin
    obtain ⟨filled, hfilled, hfilledrep, -⟩ := hCS1rep.fillGaps lola
    obtain ⟨r₁, hr₁, hr₁rep, hr₁mem⟩ := FastSetOfMonads.repInv_empty.unionWith hCS'rep
    obtain ⟨r₂, hr₂, hr₂rep, hr₂mem⟩ := hr₁rep.unionWith hfilledrep
    refine ⟨mmap', r₂, ?_, hrec.sound, hrec.keeps, hall hrec, ?_⟩
    · rw [run_bind_of_some (run_ofOption_some hCS' mmap)]
      refine (run_bind_of_some hrun).trans ?_
      rw [run_bind_of_some (run_ofOption_some hCS1 mmap'),
        run_bind_of_some (run_ofOption_some hr₁ mmap'),
        run_bind_of_some (run_ofOption_some hfilled mmap'),
        run_bind_of_some (run_ofOption_some hr₂ mmap')]
      rfl
    · refine (hcovers.of_keeps hrec.keeps hmade).around rfl hr₂rep ?_ fun _ => hCSne
      rw [hr₂mem, hr₁mem]
      exact (hsubset.trans Set.subset_union_right).trans Set.subset_union_left

mutual

/-- **`aggregateQuery` innermost first** gives each block the inst that has been made for it. -/
theorem ObjectBlock.aggregateQuery_run (h : Prepared a bs top allM1) :
    ∀ b : ObjectBlock C, (∀ b' ∈ b.objectBlocks, b' ∈ bs) →
    b.canChooseAQStrategyInnermostFirst hasORU = true → ∀ lola : Int,
      AggregatesTo a bs top (b.aggregateQuery a .empty top lola) b.objectBlocks fun f =>
        b.withInsts f
  | .mk info .null, hbs, _, lola => by
    have hb := (aggregateWithout_run h
      (hbs _ (ObjectBlock.mem_objectBlocks_self _)) (max (a.largestObjectLength info.obb) lola)).map
        fun inst => ObjectBlock.mk { info with inst := inst } .null
    exact hb
  | .mk info (.blocks inner), hbs, hcan, lola => by
    intro mmap hmmap
    rw [ObjectBlock.canChooseAQStrategyInnermostFirst, Bool.and_eq_true] at hcan
    rw [ObjectBlock.objectBlocks, OptBlocks.objectBlocks] at hbs ⊢
    rw [List.forall_mem_append] at hbs
    obtain ⟨mmap₁, CS, hrun₁, hagg₁⟩ := Blocks.aggregateQuery_run h inner hbs.1 hcan.2
      (max (a.largestObjectLength info.obb) lola) mmap hmmap
    obtain ⟨mmap₂, cs, hrun₂, hagg₂⟩ := aggregateWith_run h
      (hbs.2 _ List.mem_cons_self) hbs.1 hagg₁.sound hagg₁.made hagg₁.covers
      (max (a.largestObjectLength info.obb) lola)
    refine ⟨mmap₂, cs, ?_, hagg₂.sound, hagg₁.keeps.trans hagg₂.keeps, hagg₂.made, hagg₂.covers⟩
    have hinner : inner.withInsts (instOf a mmap₁.made) = inner.withInsts (instOf a mmap₂.made) :=
      Blocks.withInsts_congr fun b hb => hagg₂.keeps.instOf_eq (hagg₁.made b hb)
    dsimp only
    rw [ObjectBlock.aggregateQuery, OptBlocks.aggregateQuery, ObjectBlock.withInsts,
      OptBlocks.withInsts, ← hinner, bind_assoc, run_bind_of_some hrun₁, pure_bind]
    refine (run_bind_of_some hrun₂).trans ?_
    rfl

theorem Block.aggregateQuery_run (h : Prepared a bs top allM1) :
    ∀ b : Block C, (∀ b' ∈ b.objectBlocks, b' ∈ bs) →
    b.canChooseAQStrategyInnermostFirst hasORU = true → ∀ lola : Int,
      AggregatesTo a bs top (b.aggregateQuery a .empty top lola) b.objectBlocks fun f =>
        b.withInsts f
  | .gapBlock (.mk retrieval obb .null), _, _, _ =>
    AggregatesTo.pure (Block.gapBlock (.mk retrieval obb .null))
  | .optGapBlock (.mk retrieval obb .null), _, _, _ =>
    AggregatesTo.pure (Block.optGapBlock (.mk retrieval obb .null))
  | .powerBlock power, _, _, _ => AggregatesTo.pure (Block.powerBlock power)
  | .objectBlock b, hbs, hcan, lola => by
    have hb := (ObjectBlock.aggregateQuery_run h b hbs hcan lola).map Block.objectBlock
    exact hb

theorem BlockString0.aggregateQuery_run (h : Prepared a bs top allM1) :
    ∀ b : BlockString0 C, (∀ b' ∈ b.objectBlocks, b' ∈ bs) →
    b.canChooseAQStrategyInnermostFirst hasORU = true → ∀ lola : Int,
      AggregatesTo a bs top (b.aggregateQuery a .empty top lola) b.objectBlocks fun f =>
        b.withInsts f
  | .block b, hbs, hcan, lola => by
    have hb := (Block.aggregateQuery_run h b hbs hcan lola).map BlockString0.block
    exact hb
  | .blockString b, hbs, hcan, lola => by
    have hb := (BlockString.aggregateQuery_run h b hbs hcan lola).map BlockString0.blockString
    exact hb

theorem BlockString1.aggregateQuery_run (h : Prepared a bs top allM1) :
    ∀ b : BlockString1 C, (∀ b' ∈ b.objectBlocks, b' ∈ bs) →
    b.canChooseAQStrategyInnermostFirst hasORU = true → ∀ lola : Int,
      AggregatesTo a bs top (b.aggregateQuery a .empty top lola) b.objectBlocks fun f =>
        b.withInsts f
  | .nonStar b, hbs, hcan, lola => by
    have hb := (BlockString0.aggregateQuery_run h b hbs hcan lola).map BlockString1.nonStar
    exact hb

theorem BlockString2.aggregateQuery_run (h : Prepared a bs top allM1) :
    ∀ b : BlockString2 C, (∀ b' ∈ b.objectBlocks, b' ∈ bs) →
    b.canChooseAQStrategyInnermostFirst hasORU = true → ∀ lola : Int,
      AggregatesTo a bs top (b.aggregateQuery a .empty top lola) b.objectBlocks fun f =>
        b.withInsts f
  | .blockString1 node b, hbs, hcan, lola => by
    rw [BlockString2.canChooseAQStrategyInnermostFirst, Bool.and_eq_true] at hcan
    have hb := (BlockString1.aggregateQuery_run h b hbs hcan.2 lola).union
      (BlockString2.blockString1 node)
    exact hb
  | .sequence node b rest, hbs, hcan, lola => by
    rw [BlockString2.canChooseAQStrategyInnermostFirst, Bool.and_eq_true, Bool.and_eq_true] at hcan
    rw [BlockString2.objectBlocks, List.forall_mem_append] at hbs
    have hb := (BlockString1.aggregateQuery_run h b hbs.1 hcan.2.1 lola).sequence
      (BlockString2.aggregateQuery_run h rest hbs.2 hcan.2.2 lola)
      (fun _ _ heq => BlockString1.withInsts_congr heq) (BlockString2.sequence node)
    exact hb

theorem BlockString.aggregateQuery_run (h : Prepared a bs top allM1) :
    ∀ b : BlockString C, (∀ b' ∈ b.objectBlocks, b' ∈ bs) →
    b.canChooseAQStrategyInnermostFirst hasORU = true → ∀ lola : Int,
      AggregatesTo a bs top (b.aggregateQuery a .empty top lola) b.objectBlocks fun f =>
        b.withInsts f
  | .blockString2 b, hbs, hcan, lola => by
    have hb := (BlockString2.aggregateQuery_run h b hbs hcan lola).union BlockString.blockString2
    exact hb
  | .or b rest, hbs, hcan, lola => by
    rw [BlockString.canChooseAQStrategyInnermostFirst, Bool.and_eq_true] at hcan
    rw [BlockString.objectBlocks, List.forall_mem_append] at hbs
    have hb := (BlockString2.aggregateQuery_run h b hbs.1 hcan.1 lola).sequence
      (BlockString.aggregateQuery_run h rest hbs.2 hcan.2 lola)
      (fun _ _ heq => BlockString2.withInsts_congr heq) BlockString.or
    exact hb

theorem ObjectBlockString.aggregateQuery_run (h : Prepared a bs top allM1) :
    ∀ b : ObjectBlockString C, (∀ b' ∈ b.objectBlocks, b' ∈ bs) →
    b.canChooseAQStrategyInnermostFirst hasORU = true → ∀ lola : Int,
      AggregatesTo a bs top (b.aggregateQuery a .empty top lola) b.objectBlocks fun f =>
        b.withInsts f
  | .objectBlock b, hbs, hcan, lola => by
    have hb := (ObjectBlock.aggregateQuery_run h b hbs hcan lola).union
      ObjectBlockString.objectBlock
    exact hb
  | .append rest b, hbs, hcan, lola => by
    rw [ObjectBlockString.canChooseAQStrategyInnermostFirst, Bool.and_eq_true] at hcan
    rw [ObjectBlockString.objectBlocks, List.forall_mem_append] at hbs
    have hb := (ObjectBlockString.aggregateQuery_run h rest hbs.1 hcan.2 lola).append
      (ObjectBlock.aggregateQuery_run h b hbs.2 hcan.1 lola)
      (fun _ _ heq => ObjectBlockString.withInsts_congr heq) ObjectBlockString.append
    exact hb

theorem Blocks.aggregateQuery_run (h : Prepared a bs top allM1) :
    ∀ b : Blocks C, (∀ b' ∈ b.objectBlocks, b' ∈ bs) →
    b.canChooseAQStrategyInnermostFirst hasORU = true → ∀ lola : Int,
      AggregatesTo a bs top (b.aggregateQuery a .empty top lola) b.objectBlocks fun f =>
        b.withInsts f
  | .blockString usingRange b, hbs, hcan, lola => by
    have hb := (BlockString.aggregateQuery_run h b hbs hcan lola).map
      (Blocks.blockString usingRange)
    exact hb
  | .unorderedGroup b, hbs, hcan, lola => by
    have hb := (ObjectBlockString.aggregateQuery_run h b hbs hcan lola).map Blocks.unorderedGroup
    exact hb

end

/-- An object that satisfies the feature constraints is let through. -/
theorem preQuery_of_satisfied {holds : C → MonadedObject → Bool} {o : MonadedObject}
    (hexpresses : Expresses a.comparison (fun c => holds c o) fun e => a.backend e o)
    {info : ObjectBlockInfo C} (h : info.Satisfied holds o) : a.preQuery info o = true := by
  unfold AggregateEnv.preQuery
  split
  · rfl
  · cases hc : info.featureConstraints.bind fun f => f.getEMdFConstraints a.comparison with
    | none => rfl
    | some constraints =>
      obtain ⟨f, hf, hfc⟩ := Option.bind_eq_some_iff.mp hc
      have happrox := FFeatures.makeConstraints_approx hexpresses f true false constraints hfc
      rw [h f hf] at happrox
      exact top_le_iff.mp happrox

/-- An inst that has been made has of the objects of the database what may have a part in an
answer. -/
theorem SoundInsts.narrows {holds : C → MonadedObject → Bool}
    {made : List UInt8 → Option (List MonadedObject)} (h : SoundInsts a bs top made)
    (hexpresses : ∀ o, Expresses a.comparison (fun c => holds c o) fun e => a.backend e o)
    {b : ObjectBlock C} (hb : b ∈ bs) (hsome : (made (b.charString a)).isSome) :
    b.Narrowed holds (instOf a made) (fun b => a.objects b.info.obb) top := by
  obtain ⟨p, hp, hkept⟩ := h.narrowed b hb hsome
  refine ⟨fun o => p o && a.preQuery b.info o, ?_, fun o ho hsat hneeds => ?_⟩
  · rw [hp, AggregateEnv.candidates, List.filter_filter]
  · have hpre := preQuery_of_satisfied (hexpresses o) hsat
    exact Bool.and_eq_true_iff.mpr ⟨hkept o (List.mem_filter.mpr ⟨ho, hpre⟩) hneeds, hpre⟩

/-- Before anything has been made. -/
theorem sound_nil : SoundInsts a bs top (MMap.made []) where
  narrowed _ _ hsome := absurd hsome Bool.false_ne_true
  innermost _ _ hsome := absurd hsome Bool.false_ne_true
  nonempty _ _ hne := absurd rfl hne

end Strategy

end Run

/-! ## 2. `QueryBase::myExec` -/

namespace QueryBase

variable {C E S σ : Type}

/-- `QueryBase::myExec` with `kAQSInnermostFirst`. -/
def myExecInnermostFirst (q : QueryBase C) (a : AggregateEnv C E) (env : QueryEnv C S σ)
    (mSu : SetOfMonads) : Eval σ Sheaf :=
  if mSu.isEmpty then pure .fail
  else do
    let ((_, query), _) ← ofOption ((q.query.aggregateQuery a .empty mSu 0).run [])
    { q with query := query }.myExec env mSu

theorem inside_monadsBetween {Su : SetOfMonads} (hrep : Su.RepInv) (hne : Su.monadMs ≠ []) :
    Inside Su (monadsBetween Su.first Su.last) Su := by
  obtain ⟨U, hU, -, hmem⟩ := exists_range hrep hne
  refine ⟨?_, subset_rfl⟩
  rw [monadsBetween_of_add hU, hmem]

section Words

/-- Words that have a feature as asked for. -/
def askedWordInfo : ObjectBlockInfo Unit where
  obb := ⟨1, .kRetrieve⟩
  firstLast := .kNoFirstLast
  msrc := ⟨.kMSROStartsIn, .kMSNSubstrate⟩
  featureConstraints := some (.fterm (.ffactor (.comparison ())))
  hasNonParentORUs := false
  isAfterNonNOTEXISTInBlockString := false
  inst := []

def askedWord : ObjectBlock Unit := .mk askedWordInfo .null

/-- `[word f = 1] .. [word f = 1]`, before the insts are made. -/
def askedWords : Blocks Unit :=
  .blockString none (.blockString2 (.sequence 2 (.nonStar (.block (.objectBlock askedWord)))
    (.sequence 3 (.nonStar (.block (.powerBlock ⟨0, maxMonad⟩)))
      (.blockString1 4 (.nonStar (.block (.objectBlock askedWord)))))))

def askedPhrase : ObjectBlock Unit :=
  .mk { phraseInfo with obb := ⟨0, .kRetrieve⟩, inst := [] } (.blocks askedWords)

def phraseOfAskedWords : Blocks Unit :=
  .blockString none (.blockString2 (.blockString1 1 (.nonStar (.block (.objectBlock askedPhrase)))))

/-- The database of the two words, of which the second has the feature. -/
def wordAggregate : AggregateEnv Unit Unit where
  toStartMonadEnv := wordStarts
  objectTypeName obb := if obb.nodeNumber = 0 then Lexer.bytes "phrase" else Lexer.bytes "word"
  preQueryString obb := if obb.nodeNumber = 0 then [] else Lexer.bytes "f = 1"
  featureNames _ := []
  doCalculatePreQueryString _ := true
  hasORU _ := false
  comparison _ _ := some ()
  backend _ o := o.first = 2
  objects obb := if obb.nodeNumber = 0 then [bothWords] else [wordAt 7 1, wordAt 8 2]

theorem bothWords_isIn : bothWords.IsIn wordMonads :=
  ⟨wordMonads_spec.1, by decide, subset_rfl, by decide, by decide⟩

theorem wordAggregate_isIn (obb : ObjectBlockBase) :
    ∀ o ∈ wordAggregate.objects obb, o.IsIn wordMonads := by
  intro o ho
  rw [wordAggregate] at ho
  dsimp only at ho
  split at ho
  · rw [List.mem_singleton.mp ho]
    exact bothWords_isIn
  · rcases List.mem_cons.mp ho with rfl | ho
    · exact wordAt_isIn 7 (by decide) (by decide)
    · rw [List.mem_singleton.mp ho]
      exact wordAt_isIn 8 (by decide) (by decide)

theorem phraseOfAskedWords_unambiguous :
    Unambiguous wordAggregate phraseOfAskedWords.objectBlocks := by
  have hblocks : ∀ b ∈ phraseOfAskedWords.objectBlocks, b = askedWord ∨ b = askedPhrase := by
    intro b hb
    rw [show phraseOfAskedWords.objectBlocks = [askedWord, askedWord, askedPhrase] from rfl] at hb
    simpa using hb
  have hne : askedWord.charString wordAggregate ≠ askedPhrase.charString wordAggregate := by
    decide
  refine unambiguous_of_inj fun b hb b' hb' heq => ?_
  rcases hblocks b hb with rfl | rfl <;> rcases hblocks b' hb' with rfl | rfl
  · rfl
  · exact absurd heq hne
  · exact absurd heq.symm hne
  · rfl

theorem phraseOfAskedWords_plain :
    (phraseOfAskedWords.withInsts fun b => wordAggregate.objects b.info.obb).Plain wordMonads := by
  have hword : (ObjectBlock.withInsts (fun b => wordAggregate.objects b.info.obb) askedWord).Plain
      wordMonads := ⟨⟨by decide, rfl, wordAggregate_isIn ⟨1, .kRetrieve⟩⟩, trivial⟩
  exact ⟨rfl, ⟨by decide, rfl, wordAggregate_isIn ⟨0, .kRetrieve⟩⟩, rfl, hword, hword⟩

theorem phraseOfAskedWords_searchable :
    (phraseOfAskedWords.withInsts fun b => wordAggregate.objects b.info.obb).Searchable
      wordStarts := by
  have hword : (ObjectBlock.withInsts (fun b => wordAggregate.objects b.info.obb)
      askedWord).Searchable wordStarts := ⟨wordAggregate_isIn ⟨1, .kRetrieve⟩, trivial⟩
  have hfindable : ObjectBlockInfo.Findable wordStarts
      { askedWordInfo with inst := wordAggregate.objects ⟨1, .kRetrieve⟩ } :=
    ⟨by decide, by decide, rfl⟩
  have hinner : Blocks.Searchable wordStarts (Blocks.withInsts
      (fun b => wordAggregate.objects b.info.obb) askedWords) := by
    refine ⟨⟨hword, ⟨trivial, hword, fun _ => hfindable⟩, fun hpower => ?_⟩, hfindable⟩
    exact absurd hpower Bool.false_ne_true
  exact ⟨⟨wordAggregate_isIn ⟨0, .kRetrieve⟩, hinner⟩, ⟨by decide, by decide, rfl⟩⟩

theorem phraseOfAskedWords_focused : phraseOfAskedWords.Focused false := by
  have hword : askedWord.Focused true :=
    ⟨fun _ => rfl, fun h => absurd h.symm Bool.false_ne_true, trivial⟩
  exact ⟨fun h => absurd h Bool.false_ne_true, fun _ => rfl, hword, trivial, hword⟩

end Words

end QueryBase

end Emdros
