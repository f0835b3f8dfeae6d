/-
# Queries with fewer objects

What is assumed of a query (`Plain`, `Searchable`) says of the insts only that they are in order and
in the database.  Before a query is evaluated its insts are made, and an object block gets some of
the objects of its type, not all of them.  The assumptions are about the query as it was asked, with
all objects, so it has to be shown that they are left when objects are left out.

Each of the lemmas is a recursion over the query with one case for a kind of block; only the case of
an object block has something to it, that a sublist of a list in order is in order.
`withInsts_congr` goes with them: two ways of making the insts that agree on the object blocks of a
query give the same query.
-/
import Emdros.MQL.NarrowedInsts

namespace Emdros

section Fewer

variable {C : Type} {f g : ObjectBlock C → List MonadedObject} {allM1 : SetOfMonads}
  {e : StartMonadEnv}

mutual

/-- The same insts make the same query. -/
theorem ObjectBlock.withInsts_congr : ∀ {b : ObjectBlock C},
    (∀ b' ∈ b.objectBlocks, f b' = g b') → b.withInsts f = b.withInsts g
  | .mk info optBlocks, h => by
    rw [ObjectBlock.objectBlocks, List.forall_mem_append] at h
    rw [ObjectBlock.withInsts, ObjectBlock.withInsts, OptBlocks.withInsts_congr h.1,
      h.2 _ List.mem_cons_self]

theorem GapBlock.withInsts_congr : ∀ {b : GapBlock C},
    (∀ b' ∈ b.objectBlocks, f b' = g b') → b.withInsts f = b.withInsts g
  | .mk retrieval obb optBlocks, h => by
    rw [GapBlock.withInsts, GapBlock.withInsts, OptBlocks.withInsts_congr h]

theorem OptBlocks.withInsts_congr : ∀ {b : OptBlocks C},
    (∀ b' ∈ b.objectBlocks, f b' = g b') → b.withInsts f = b.withInsts g
  | .null, _ => rfl
  | .blocks b, h => by
    rw [OptBlocks.withInsts, OptBlocks.withInsts, Blocks.withInsts_congr h]

theorem Block.withInsts_congr : ∀ {b : Block C},
    (∀ b' ∈ b.objectBlocks, f b' = g b') → b.withInsts f = b.withInsts g
  | .gapBlock b, h => by rw [Block.withInsts, Block.withInsts, GapBlock.withInsts_congr h]
  | .optGapBlock b, h => by rw [Block.withInsts, Block.withInsts, GapBlock.withInsts_congr h]
  | .powerBlock _, _ => rfl
  | .objectBlock b, h => by rw [Block.withInsts, Block.withInsts, ObjectBlock.withInsts_congr h]
  | .objectBlockNOTEXIST b, h => by
    rw [Block.withInsts, Block.withInsts, ObjectBlock.withInsts_congr h]

theorem BlockString0.withInsts_congr : ∀ {b : BlockString0 C},
    (∀ b' ∈ b.objectBlocks, f b' = g b') → b.withInsts f = b.withInsts g
  | .block b, h => by
    rw [BlockString0.withInsts, BlockString0.withInsts, Block.withInsts_congr h]
  | .blockString b, h => by
    rw [BlockString0.withInsts, BlockString0.withInsts, BlockString.withInsts_congr h]

theorem BlockString1.withInsts_congr : ∀ {b : BlockString1 C},
    (∀ b' ∈ b.objectBlocks, f b' = g b') → b.withInsts f = b.withInsts g
  | .nonStar b, h => by
    rw [BlockString1.withInsts, BlockString1.withInsts, BlockString0.withInsts_congr h]
  | .star b _, h => by
    rw [BlockString1.withInsts, BlockString1.withInsts, BlockString0.withInsts_congr h]

theorem BlockString2.withInsts_congr : ∀ {b : BlockString2 C},
    (∀ b' ∈ b.objectBlocks, f b' = g b') → b.withInsts f = b.withInsts g
  | .blockString1 _ b, h => by
    rw [BlockString2.withInsts, BlockString2.withInsts, BlockString1.withInsts_congr h]
  | .sequence _ b rest, h => by
    rw [BlockString2.objectBlocks, List.forall_mem_append] at h
    rw [BlockString2.withInsts, BlockString2.withInsts, BlockString1.withInsts_congr h.1,
      BlockString2.withInsts_congr h.2]

theorem BlockString.withInsts_congr : ∀ {b : BlockString C},
    (∀ b' ∈ b.objectBlocks, f b' = g b') → b.withInsts f = b.withInsts g
  | .blockString2 b, h => by
    rw [BlockString.withInsts, BlockString.withInsts, BlockString2.withInsts_congr h]
  | .or b rest, h => by
    rw [BlockString.objectBlocks, List.forall_mem_append] at h
    rw [BlockString.withInsts, BlockString.withInsts, BlockString2.withInsts_congr h.1,
      BlockString.withInsts_congr h.2]

theorem ObjectBlockString.withInsts_congr : ∀ {b : ObjectBlockString C},
    (∀ b' ∈ b.objectBlocks, f b' = g b') → b.withInsts f = b.withInsts g
  | .objectBlock b, h => by
    rw [ObjectBlockString.withInsts, ObjectBlockString.withInsts, ObjectBlock.withInsts_congr h]
  | .append bs b, h => by
    rw [ObjectBlockString.objectBlocks, List.forall_mem_append] at h
    rw [ObjectBlockString.withInsts, ObjectBlockString.withInsts,
      ObjectBlockString.withInsts_congr h.1, ObjectBlock.withInsts_congr h.2]

theorem Blocks.withInsts_congr : ∀ {b : Blocks C},
    (∀ b' ∈ b.objectBlocks, f b' = g b') → b.withInsts f = b.withInsts g
  | .blockString _ b, h => by
    rw [Blocks.withInsts, Blocks.withInsts, BlockString.withInsts_congr h]
  | .unorderedGroup b, h => by
    rw [Blocks.withInsts, Blocks.withInsts, ObjectBlockString.withInsts_congr h]

end

mutual

/-- With fewer objects a query is still plain. -/
theorem ObjectBlock.plain_withInsts : ∀ {b : ObjectBlock C},
    (∀ b' ∈ b.objectBlocks, (f b').Sublist (g b')) → (b.withInsts g).Plain allM1 →
      (b.withInsts f).Plain allM1
  | .mk info optBlocks, h, hplain => by
    rw [ObjectBlock.objectBlocks, List.forall_mem_append] at h
    have hsub := h.2 _ List.mem_cons_self
    exact ⟨⟨hplain.1.ordered.sublist hsub, hplain.1.noORUs,
      fun o ho => hplain.1.objects o (hsub.subset ho)⟩, OptBlocks.plain_withInsts h.1 hplain.2⟩

theorem GapBlock.plain_withInsts : ∀ {b : GapBlock C},
    (∀ b' ∈ b.objectBlocks, (f b').Sublist (g b')) → (b.withInsts g).Plain allM1 →
      (b.withInsts f).Plain allM1
  | .mk _ _ _, h, hplain => OptBlocks.plain_withInsts h hplain

theorem OptBlocks.plain_withInsts : ∀ {b : OptBlocks C},
    (∀ b' ∈ b.objectBlocks, (f b').Sublist (g b')) → (b.withInsts g).Plain allM1 →
      (b.withInsts f).Plain allM1
  | .null, _, _ => trivial
  | .blocks _, h, hplain => Blocks.plain_withInsts h hplain

theorem Block.plain_withInsts : ∀ {b : Block C},
    (∀ b' ∈ b.objectBlocks, (f b').Sublist (g b')) → (b.withInsts g).Plain allM1 →
      (b.withInsts f).Plain allM1
  | .gapBlock _, h, hplain => GapBlock.plain_withInsts h hplain
  | .optGapBlock _, h, hplain => GapBlock.plain_withInsts h hplain
  | .powerBlock _, _, hplain => hplain
  | .objectBlock _, h, hplain => ObjectBlock.plain_withInsts h hplain
  | .objectBlockNOTEXIST _, h, hplain => ObjectBlock.plain_withInsts h hplain

theorem BlockString0.plain_withInsts : ∀ {b : BlockString0 C},
    (∀ b' ∈ b.objectBlocks, (f b').Sublist (g b')) → (b.withInsts g).Plain allM1 →
      (b.withInsts f).Plain allM1
  | .block _, h, hplain => Block.plain_withInsts h hplain
  | .blockString _, h, hplain => BlockString.plain_withInsts h hplain

theorem BlockString1.plain_withInsts : ∀ {b : BlockString1 C},
    (∀ b' ∈ b.objectBlocks, (f b').Sublist (g b')) → (b.withInsts g).Plain allM1 →
      (b.withInsts f).Plain allM1
  | .nonStar _, h, hplain => BlockString0.plain_withInsts h hplain
  | .star _ _, h, hplain => ⟨hplain.1, BlockString0.plain_withInsts h hplain.2⟩

theorem BlockString2.plain_withInsts : ∀ {b : BlockString2 C},
    (∀ b' ∈ b.objectBlocks, (f b').Sublist (g b')) → (b.withInsts g).Plain allM1 →
      (b.withInsts f).Plain allM1
  | .blockString1 _ _, h, hplain => BlockString1.plain_withInsts h hplain
  | .sequence _ b (.blockString1 _ next), h, hplain => by
    rw [BlockString2.objectBlocks, List.forall_mem_append] at h
    exact ⟨BlockString1.plain_withInsts h.1 hplain.1, BlockString1.plain_withInsts h.2 hplain.2⟩
  | .sequence node b (.sequence node' next nextButOne), h, hplain => by
    rw [BlockString2.objectBlocks, List.forall_mem_append] at h
    rw [BlockString2.withInsts, BlockString2.withInsts, BlockString2.Plain,
      getPowerBlock_withInsts] at hplain ⊢
    refine ⟨BlockString1.plain_withInsts h.1 hplain.1, ?_⟩
    have hrest := hplain.2
    have h' := h.2
    cases hpower : next.getPowerBlock with
    | some power =>
      rw [hpower] at hrest
      rw [BlockString2.objectBlocks, List.forall_mem_append] at h'
      exact BlockString2.plain_withInsts h'.2 hrest
    | none =>
      rw [hpower] at hrest
      exact BlockString2.plain_withInsts (b := .sequence node' next nextButOne) h' hrest

theorem BlockString.plain_withInsts : ∀ {b : BlockString C},
    (∀ b' ∈ b.objectBlocks, (f b').Sublist (g b')) → (b.withInsts g).Plain allM1 →
      (b.withInsts f).Plain allM1
  | .blockString2 _, h, hplain => BlockString2.plain_withInsts h hplain
  | .or _ _, h, hplain => by
    rw [BlockString.objectBlocks, List.forall_mem_append] at h
    exact ⟨BlockString2.plain_withInsts h.1 hplain.1, BlockString.plain_withInsts h.2 hplain.2⟩

theorem ObjectBlockString.plain_withInsts : ∀ {b : ObjectBlockString C},
    (∀ b' ∈ b.objectBlocks, (f b').Sublist (g b')) → (b.withInsts g).Plain allM1 →
      (b.withInsts f).Plain allM1
  | .objectBlock _, h, hplain => ObjectBlock.plain_withInsts h hplain
  | .append _ _, h, hplain => by
    rw [ObjectBlockString.objectBlocks, List.forall_mem_append] at h
    exact ⟨ObjectBlockString.plain_withInsts h.1 hplain.1,
      ObjectBlock.plain_withInsts h.2 hplain.2⟩

theorem Blocks.plain_withInsts : ∀ {b : Blocks C},
    (∀ b' ∈ b.objectBlocks, (f b').Sublist (g b')) → (b.withInsts g).Plain allM1 →
      (b.withInsts f).Plain allM1
  | .blockString _ _, h, hplain => ⟨hplain.1, BlockString.plain_withInsts h hplain.2⟩
  | .unorderedGroup _, h, hplain => ObjectBlockString.plain_withInsts h hplain

end

/-- What makes the starts of an object block known is its relation to the substrate, not its inst.
-/
theorem ObjectBlockInfo.findable_withInst {info : ObjectBlockInfo C} {l l' : List MonadedObject}
    (h : ObjectBlockInfo.Findable e { info with inst := l }) :
    ObjectBlockInfo.Findable e { info with inst := l' } :=
  ⟨h.isMonads, h.operation, h.substrate⟩

/-- Whether `getSMI` finds the starts does not depend on the insts. -/
theorem Block.findable_withInsts {gaps : Bool} : ∀ {b : Block C},
    (b.withInsts g).Findable e gaps → (b.withInsts f).Findable e gaps
  | .gapBlock _, h => h
  | .optGapBlock _, h => h
  | .objectBlock (.mk _ _), h => ObjectBlockInfo.findable_withInst h

mutual

theorem BlockString0.findable_withInsts {gaps inOr : Bool} : ∀ {b : BlockString0 C},
    (b.withInsts g).Findable e gaps inOr → (b.withInsts f).Findable e gaps inOr
  | .block _, h => Block.findable_withInsts h
  | .blockString _, h => BlockString.findable_withInsts h

theorem BlockString1.findable_withInsts {gaps inOr : Bool} : ∀ {b : BlockString1 C},
    (b.withInsts g).Findable e gaps inOr → (b.withInsts f).Findable e gaps inOr
  | .nonStar _, h => BlockString0.findable_withInsts h
  | .star _ _, h => ⟨h.1, BlockString0.findable_withInsts h.2⟩

theorem BlockString2.findable_withInsts {gaps inOr : Bool} : ∀ {b : BlockString2 C},
    (b.withInsts g).Findable e gaps inOr → (b.withInsts f).Findable e gaps inOr
  | .blockString1 _ _, h => BlockString1.findable_withInsts h
  | .sequence _ b _, h => BlockString1.findable_withInsts (b := b) h

theorem BlockString.findable_withInsts {gaps inOr : Bool} : ∀ {b : BlockString C},
    (b.withInsts g).Findable e gaps inOr → (b.withInsts f).Findable e gaps inOr
  | .blockString2 _, h => BlockString2.findable_withInsts h
  | .or _ _, h => ⟨BlockString2.findable_withInsts h.1, BlockString.findable_withInsts h.2⟩

end

/-- The block before a power block keeps its place, so that a sequence is cut at the same blocks. -/
theorem getBlockString1_withInsts : ∀ b : BlockString2 C,
    (b.withInsts f).getBlockString1 = b.getBlockString1.withInsts f
  | .blockString1 _ _ => rfl
  | .sequence _ _ _ => rfl

mutual

/-- With fewer objects a query can still be searched. -/
theorem ObjectBlock.searchable_withInsts : ∀ {b : ObjectBlock C},
    (∀ b' ∈ b.objectBlocks, (f b').Sublist (g b')) → (b.withInsts g).Searchable e →
      (b.withInsts f).Searchable e
  | .mk info optBlocks, h, hs => by
    rw [ObjectBlock.objectBlocks, List.forall_mem_append] at h
    exact ⟨fun o ho => hs.1 o ((h.2 _ List.mem_cons_self).subset ho),
      OptBlocks.searchable_withInsts h.1 hs.2⟩

theorem GapBlock.searchable_withInsts : ∀ {b : GapBlock C},
    (∀ b' ∈ b.objectBlocks, (f b').Sublist (g b')) → (b.withInsts g).Searchable e →
      (b.withInsts f).Searchable e
  | .mk _ _ _, h, hs => OptBlocks.searchable_withInsts h hs

theorem OptBlocks.searchable_withInsts : ∀ {b : OptBlocks C},
    (∀ b' ∈ b.objectBlocks, (f b').Sublist (g b')) → (b.withInsts g).Searchable e →
      (b.withInsts f).Searchable e
  | .null, _, _ => trivial
  | .blocks _, h, hs => Blocks.searchable_withInsts h hs

theorem Block.searchable_withInsts : ∀ {b : Block C},
    (∀ b' ∈ b.objectBlocks, (f b').Sublist (g b')) → (b.withInsts g).Searchable e →
      (b.withInsts f).Searchable e
  | .gapBlock _, h, hs => GapBlock.searchable_withInsts h hs
  | .optGapBlock _, h, hs => GapBlock.searchable_withInsts h hs
  | .powerBlock _, _, _ => trivial
  | .objectBlock _, h, hs => ObjectBlock.searchable_withInsts h hs
  | .objectBlockNOTEXIST (.mk info optBlocks), h, hs =>
    ⟨ObjectBlockInfo.findable_withInst hs.1,
      ObjectBlock.searchable_withInsts (b := .mk info optBlocks) h hs.2⟩

theorem BlockString0.searchable_withInsts : ∀ {b : BlockString0 C},
    (∀ b' ∈ b.objectBlocks, (f b').Sublist (g b')) → (b.withInsts g).Searchable e →
      (b.withInsts f).Searchable e
  | .block _, h, hs => Block.searchable_withInsts h hs
  | .blockString _, h, hs => BlockString.searchable_withInsts h hs

theorem BlockString1.searchable_withInsts : ∀ {b : BlockString1 C},
    (∀ b' ∈ b.objectBlocks, (f b').Sublist (g b')) → (b.withInsts g).Searchable e →
      (b.withInsts f).Searchable e
  | .nonStar _, h, hs => BlockString0.searchable_withInsts h hs
  | .star _ _, h, hs => BlockString0.searchable_withInsts h hs

theorem BlockString2.searchable_withInsts : ∀ {b : BlockString2 C},
    (∀ b' ∈ b.objectBlocks, (f b').Sublist (g b')) → (b.withInsts g).Searchable e →
      (b.withInsts f).Searchable e
  | .blockString1 _ _, h, hs => BlockString1.searchable_withInsts h hs
  | .sequence node b rest, h, hs => by
    rw [BlockString2.objectBlocks, List.forall_mem_append] at h
    rw [BlockString2.withInsts, BlockString2.Searchable, getPowerBlock_withInsts,
      getBlockString1_withInsts] at hs ⊢
    exact ⟨BlockString1.searchable_withInsts h.1 hs.1, BlockString2.searchable_withInsts h.2 hs.2.1,
      fun hpower => BlockString1.findable_withInsts (hs.2.2 hpower)⟩

theorem BlockString.searchable_withInsts : ∀ {b : BlockString C},
    (∀ b' ∈ b.objectBlocks, (f b').Sublist (g b')) → (b.withInsts g).Searchable e →
      (b.withInsts f).Searchable e
  | .blockString2 _, h, hs => BlockString2.searchable_withInsts h hs
  | .or _ _, h, hs => by
    rw [BlockString.objectBlocks, List.forall_mem_append] at h
    exact ⟨BlockString2.searchable_withInsts h.1 hs.1, BlockString.searchable_withInsts h.2 hs.2⟩

theorem ObjectBlockString.searchable_withInsts : ∀ {b : ObjectBlockString C},
    (∀ b' ∈ b.objectBlocks, (f b').Sublist (g b')) → (b.withInsts g).Searchable e →
      (b.withInsts f).Searchable e
  | .objectBlock (.mk info optBlocks), h, hs =>
    ⟨ObjectBlockInfo.findable_withInst hs.1,
      ObjectBlock.searchable_withInsts (b := .mk info optBlocks) h hs.2⟩
  | .append _ (.mk info optBlocks), h, hs => by
    rw [ObjectBlockString.objectBlocks, List.forall_mem_append] at h
    exact ⟨ObjectBlockString.searchable_withInsts h.1 hs.1,
      ObjectBlockInfo.findable_withInst hs.2.1,
      ObjectBlock.searchable_withInsts (b := .mk info optBlocks) h.2 hs.2.2⟩

theorem Blocks.searchable_withInsts : ∀ {b : Blocks C},
    (∀ b' ∈ b.objectBlocks, (f b').Sublist (g b')) → (b.withInsts g).Searchable e →
      (b.withInsts f).Searchable e
  | .blockString _ _, h, hs =>
    ⟨BlockString.searchable_withInsts h hs.1, BlockString.findable_withInsts hs.2⟩
  | .unorderedGroup _, h, hs => ObjectBlockString.searchable_withInsts h hs

end

end Fewer

end Emdros
