/-
# `RANGE(s, e)` (`R_blocks` in `mql_R.cpp`)

A query with a range asks for the straws with index `s` to `e` of those that it would return
otherwise.  The loop of `R_blocks` first filters each batch into `pIntermediateLOS`, which
deletes `pLOS`, and then distinguishes how the batch lies to the range.  Before the range it
only counts (`rangeCases_before`).  As soon as a batch reaches the range, every case fails: two
take straws from the deleted `pLOS`, one deletes it again, and what remains is an assertion
(`rangeCases_reached`).

So `usingRange_iff`: the slice is returned exactly when no straw is, or when the straws end before
the range.
-/
import Emdros.MQL.Blocks

namespace Emdros

open Partial ListOfStraws

/-! ## 1. Lists of straws on the heap -/

section Append

variable {h : Heap (List Straw)} {this other : Nat} {mine los : List Straw}

theorem run_appendAndSubsumeWhileFiltering (hthis : h.cell this = some mine)
    (hother : h.cell other = some los) (hne : this ≠ other) :
    ∃ h', (appendAndSubsumeWhileFiltering this other).run h
        = some (((filtered los).length : Int), h') ∧
      h'.cell this = some (mine ++ filtered los) ∧ h'.cell other = none ∧ h'.next = h.next ∧
      ∀ q, q ≠ this → q ≠ other → h'.cell q = h.cell q := by
  have hlive : (h.set this (some (mine ++ filtered los)) (Heap.lt_next hthis)).cell other
      = some los := by
    rw [Heap.cell_set _ _ _ hne.symm]
    exact hother
  refine ⟨(h.set this (some (mine ++ filtered los)) (Heap.lt_next hthis)).set other none
    (Heap.lt_next hlive), ?_, ?_, Heap.cell_set_self .., rfl, ?_⟩
  · rw [appendAndSubsumeWhileFiltering, run_bind_of_some (Heap.run_read hother),
      run_bind_of_some (Heap.run_read hthis), Heap.write, run_bind_of_some (Heap.run_assign hthis _),
      Heap.delete, run_bind_of_some (Heap.run_assign hlive _)]
    rfl
  · rw [Heap.cell_set _ _ _ hne, Heap.cell_set_self]
  · intro q hq hq'
    rw [Heap.cell_set _ _ _ hq', Heap.cell_set _ _ _ hq]

/-- Taking from a deleted list. -/
theorem run_appendAndSubsumeWhileFiltering_none (hother : h.cell other = none) :
    (appendAndSubsumeWhileFiltering this other).run h = none := by
  exact run_bind_of_none (Heap.run_read_none hother)

theorem run_appendAndSubsumeWhileCounting_none (hother : h.cell other = none)
    (startIndex count : Int) :
    (appendAndSubsumeWhileCounting this other startIndex count).run h = none := by
  exact run_bind_of_none (Heap.run_read_none hother)

/-- `appendAndSubsumeWhileCounting` leaves a deleted list deleted. -/
theorem appendAndSubsumeWhileCounting_keeps {startIndex count n : Int} {h' : Heap (List Straw)}
    {p : Nat} (hp : h.cell p = none) (hthis : this ≠ p)
    (hrun : (appendAndSubsumeWhileCounting this other startIndex count).run h = some (n, h')) :
    h'.cell p = none := by
  obtain ⟨los, h₁, hread, hrun⟩ := bind_eq_some.mp hrun
  obtain ⟨mine, h₂, hread', hrun⟩ := bind_eq_some.mp hrun
  obtain ⟨_, h₃, hwrite, hrun⟩ := bind_eq_some.mp hrun
  obtain ⟨_, h₄, hdelete, hrun⟩ := bind_eq_some.mp hrun
  cases pure_eq_some.mp hrun
  obtain ⟨-, rfl⟩ := Heap.read_eq_some hread
  obtain ⟨-, rfl⟩ := Heap.read_eq_some hread'
  obtain ⟨-, hcell⟩ := Heap.assign_eq_some hwrite
  obtain ⟨-, hcell'⟩ := Heap.assign_eq_some hdelete
  have hp₃ : h₃.cell p = none := by
    rw [hcell, Function.update_of_ne hthis.symm]
    exact hp
  rw [hcell']
  by_cases hother : p = other
  · rw [hother, Function.update_self]
  · rw [Function.update_of_ne hother]
    exact hp₃

end Append

/-! ## 2. One batch -/

section Batch

variable {h : Heap (List Straw)} {pUR : UsingRange} {count losSize : Int}
  {pLOS pIntermediateLOS : Nat} {los : List Straw}

/-- When the cases begin, the filtered batch is in `pIntermediateLOS` and `pLOS` is deleted. -/
theorem run_rangeBatch (pUR : UsingRange) (count : Int) (hp : h.cell pLOS = some los) :
    ∃ h', (rangeBatch (some pUR) count pLOS).run h
        = (rangeCases pUR count pLOS h.next (filtered los).length).run h' ∧
      h'.cell h.next = some (filtered los) ∧ h'.cell pLOS = none ∧ pLOS < h'.next ∧
      ∀ q a, q ≠ pLOS → h.cell q = some a → q ≠ h.next ∧ h'.cell q = some a := by
  have hne : h.next ≠ pLOS := (Nat.ne_of_lt (Heap.lt_next hp)).symm
  obtain ⟨h', hrun, hthis, hother, hnext, hframe⟩ := run_appendAndSubsumeWhileFiltering
    (Heap.cell_alloc_self h []) (Heap.cell_alloc hp []) hne
  refine ⟨h', ?_, by rw [hthis, List.nil_append], hother, ?_, ?_⟩
  · rw [rangeBatch, run_bind_of_some (Heap.run_new h []), run_bind_of_some hrun]
  · rw [hnext]
    exact Nat.lt_succ_of_lt (Heap.lt_next hp)
  · intro q a hq hcell
    have hq' : q ≠ h.next := Nat.ne_of_lt (Heap.lt_next hcell)
    exact ⟨hq', (hframe q hq' hq).trans (Heap.cell_alloc hcell [])⟩

/-- **Before the range**, or with nothing to return, a batch is counted and dropped. -/
theorem rangeCases_before (pLOS : Nat) (hI : h.cell pIntermediateLOS = some los) (hle : count ≤ pUR.end_)
    (hbefore : losSize = 0 ∨ count + losSize < pUR.start) :
    ∃ h', (rangeCases pUR count pLOS pIntermediateLOS losSize).run h
        = some (.continue_ (count + losSize), h') ∧
      ∀ q, q ≠ pIntermediateLOS → h'.cell q = h.cell q := by
  refine ⟨h.set pIntermediateLOS none (Heap.lt_next hI), ?_, fun q hq => Heap.cell_set _ _ _ hq⟩
  by_cases h₀ : losSize = 0
  · rw [rangeCases, if_pos h₀, h₀, Int.add_zero]
    exact run_bind_of_some (Heap.run_assign hI none)
  · have hlt : count + losSize < pUR.start := hbefore.resolve_left h₀
    rw [rangeCases, if_neg h₀, if_neg (Int.not_lt.mpr hle), if_pos hlt]
    exact run_bind_of_some (Heap.run_assign hI none)

/-- **Once the range is reached**, what the cases hand on, if anything, is the deleted `pLOS`. -/
theorem rangeCases_reached (hp : h.cell pLOS = none) (hlt : pLOS < h.next)
    (hle : count ≤ pUR.end_) (h₀ : losSize ≠ 0) (hreach : pUR.start ≤ count + losSize)
    {step : RangeStep} {h' : Heap (List Straw)}
    (hrun : (rangeCases pUR count pLOS pIntermediateLOS losSize).run h = some (step, h')) :
    ∃ c, step = .store c pLOS ∧ h'.cell pLOS = none := by
  have hdead : (h.alloc []).cell pLOS = none :=
    (Function.update_of_ne (Nat.ne_of_lt hlt) ..).trans hp
  rw [rangeCases, if_neg h₀, if_neg (Int.not_lt.mpr hle), if_neg (Int.not_lt.mpr hreach)] at hrun
  split at hrun
  · -- 3: `pLOS` is stored
    cases pure_eq_some.mp hrun
    exact ⟨_, rfl, hp⟩
  · split at hrun
    · -- 2: straws are taken from `pLOS`
      obtain ⟨p, h₁, hnew, hrun⟩ := bind_eq_some.mp hrun
      cases hnew
      obtain ⟨n, h₂, hcount, -⟩ := bind_eq_some.mp hrun
      rw [run_appendAndSubsumeWhileCounting_none hdead] at hcount
      cases hcount
    · split at hrun
      · -- 6: `pLOS` is deleted
        obtain ⟨p, h₁, hnew, hrun⟩ := bind_eq_some.mp hrun
        cases hnew
        obtain ⟨n, h₂, hcount, hrun⟩ := bind_eq_some.mp hrun
        obtain ⟨_, h₃, hdelete, -⟩ := bind_eq_some.mp hrun
        have hdead₂ := appendAndSubsumeWhileCounting_keeps hdead (Nat.ne_of_gt hlt) hcount
        change (Heap.assign pLOS none).run h₂ = _ at hdelete
        rw [Heap.run_assign_none hdead₂] at hdelete
        cases hdelete
      · -- the assertion that this is not reached
        rw [run_failure] at hrun
        cases hrun

/-- Storing a deleted list. -/
theorem storeLOS_none {σ : Type} (pCallback : Option (MQLResultCallback σ)) (bStore : Bool)
    (pResultLOS : Nat) (hp : h.cell pLOS = none) (s : σ) :
    (storeLOS pCallback bStore pResultLOS pLOS h).run s = none := by
  cases pCallback with
  | none =>
    exact run_bind_of_none (run_ofOption_none (run_appendAndSubsumeWhileFiltering_none hp) s)
  | some callback =>
    exact run_bind_of_none (run_ofOption_none (Heap.run_read_none hp) s)

end Batch

/-! ## 3. The loop -/

section Loop

variable {σ : Type} {pCallback : Option (MQLResultCallback σ)} {bStore : Bool} {pUR : UsingRange}
  {pResultLOS : Nat} {rBlockString : Int → Eval σ (List Straw)}

/-- The straws that are to be returned without the range: the filtered batches in order. -/
def filteredBatches (batches : List (List Straw)) : List Straw := batches.flatMap filtered

/-- The running count is below the range as long as the loop runs. -/
def BelowRange (pUR : UsingRange) (count : Int) : Prop :=
  0 ≤ count ∧ (count = 0 ∨ count < pUR.start)

theorem BelowRange.le_end {count : Int} (h : BelowRange pUR count) (hr : pUR.weed = true) :
    count ≤ pUR.end_ := by
  unfold UsingRange.weed at hr
  unfold BelowRange at h
  simp only [Bool.and_eq_true, Bool.not_eq_true', decide_eq_false_iff_not] at hr
  omega

section Round

variable {range : Option UsingRange} {v : BlocksLoop} {s s₁ : σ} {Sm : Int} {smi : List Int}
  {los : List Straw}

/-- A round without straws. -/
theorem run_blocksLoop_empty (hcont : v.bContinueExecution = true)
    (hlos : (rBlockString Sm).run s = some ([], s₁)) :
    (blocksLoop pCallback bStore range pResultLOS rBlockString (Sm :: smi) v).run s
      = (blocksLoop pCallback bStore range pResultLOS rBlockString smi v).run s₁ := by
  rw [blocksLoop, if_pos hcont, run_bind_of_some hlos]
  rfl

/-- A round that drops its batch. -/
theorem run_blocksLoop_continue (hcont : v.bContinueExecution = true)
    (hlos : (rBlockString Sm).run s = some (los, s₁)) (hne : ¬ los.isEmpty = true) {count : Int}
    {heap : Heap (List Straw)}
    (hbatch : (rangeBatch range v.count v.heap.next).run (v.heap.alloc los)
      = some (.continue_ count, heap)) :
    (blocksLoop pCallback bStore range pResultLOS rBlockString (Sm :: smi) v).run s
      = (blocksLoop pCallback bStore range pResultLOS rBlockString smi
          { v with heap, count, bSuccess := true }).run s₁ := by
  rw [blocksLoop, if_pos hcont, run_bind_of_some hlos, if_neg hne,
    run_bind_of_some (run_ofOption_some hbatch s₁)]

/-- A round that can at most go on to store a deleted list. -/
theorem run_blocksLoop_none (hcont : v.bContinueExecution = true)
    (hlos : (rBlockString Sm).run s = some (los, s₁)) (hne : ¬ los.isEmpty = true)
    (hbatch : ∀ step heap, (rangeBatch range v.count v.heap.next).run (v.heap.alloc los)
      = some (step, heap) → ∃ count pLOS, step = .store count pLOS ∧ heap.cell pLOS = none) :
    (blocksLoop pCallback bStore range pResultLOS rBlockString (Sm :: smi) v).run s = none := by
  rw [blocksLoop, if_pos hcont, run_bind_of_some hlos, if_neg hne]
  cases hrun : (rangeBatch range v.count v.heap.next).run (v.heap.alloc los) with
  | none => exact run_bind_of_none (run_ofOption_none hrun s₁)
  | some r =>
    obtain ⟨step, heap⟩ := r
    obtain ⟨count, pLOS, rfl, hdead⟩ := hbatch step heap hrun
    rw [run_bind_of_some (run_ofOption_some hrun s₁)]
    exact run_bind_of_none (storeLOS_none _ _ _ hdead s₁)

end Round

variable (pCallback bStore pResultLOS) in
/-- What the loop does, given the batches that `R_block_string` returns: it ends if no straw
falls in the range, and else fails. -/
theorem run_blocksLoop (hr : pUR.weed = true) : ∀ (smi : List Int) (v : BlocksLoop) (s s' : σ)
    (batches : List (List Straw)), v.bContinueExecution = true → BelowRange pUR v.count →
      v.heap.cell pResultLOS = some [] → (smi.mapM rBlockString).run s = some (batches, s') →
      (((filteredBatches batches).length = 0 ∨
          v.count + (filteredBatches batches).length < pUR.start) →
        ∃ v', (blocksLoop pCallback bStore (some pUR) pResultLOS rBlockString smi v).run s
            = some (v', s') ∧ v'.heap.cell pResultLOS = some []) ∧
      (¬ ((filteredBatches batches).length = 0 ∨
          v.count + (filteredBatches batches).length < pUR.start) →
        (blocksLoop pCallback bStore (some pUR) pResultLOS rBlockString smi v).run s = none)
  | [], v, s, s', batches, _, _, hres, hmap => by
    rw [List.mapM_nil] at hmap
    cases pure_eq_some.mp hmap
    exact ⟨fun _ => ⟨v, rfl, hres⟩, fun hnot => absurd (Or.inl rfl) hnot⟩
  | Sm :: smi, v, s, s', batches, hcont, hbelow, hres, hmap => by
    rw [List.mapM_cons] at hmap
    obtain ⟨los, s₁, hlos, hmap⟩ := bind_eq_some.mp hmap
    obtain ⟨rest, _, hrest, hmap⟩ := bind_eq_some.mp hmap
    cases pure_eq_some.mp hmap
    have hlength : (filteredBatches (los :: rest)).length
        = (filtered los).length + (filteredBatches rest).length := by
      rw [filteredBatches, List.flatMap_cons, List.length_append]
      rfl
    rw [hlength]
    by_cases hempty : los.isEmpty = true
    · obtain rfl := List.isEmpty_iff.mp hempty
      have hnone : (filtered []).length = 0 := rfl
      rw [run_blocksLoop_empty hcont hlos, hnone, Nat.zero_add]
      exact run_blocksLoop hr smi v s₁ s' rest hcont hbelow hres hrest
    obtain ⟨h', hbatch, hI, hdead, hlt, hframe⟩ := run_rangeBatch pUR v.count
      (Heap.cell_alloc_self v.heap los)
    by_cases hbefore : ((filtered los).length : Int) = 0 ∨
        v.count + (filtered los).length < pUR.start
    · -- the range is not reached by this batch
      obtain ⟨hneI, hres'⟩ := hframe pResultLOS [] (Nat.ne_of_lt (Heap.lt_next hres))
        (Heap.cell_alloc hres los)
      obtain ⟨h'', hcases, hframe'⟩ := rangeCases_before v.heap.next hI
        (hbelow.le_end hr) hbefore
      have hbelow' : BelowRange pUR (v.count + (filtered los).length) := by
        unfold BelowRange at hbelow ⊢
        omega
      have ih := run_blocksLoop hr smi
        { v with heap := h'', count := v.count + (filtered los).length, bSuccess := true }
        s₁ s' rest hcont hbelow' ((hframe' _ hneI).trans hres') hrest
      rw [run_blocksLoop_continue hcont hlos hempty (hbatch.trans hcases)]
      dsimp only at ih ⊢
      exact ⟨fun hcond => ih.1 (by omega), fun hcond => ih.2 (by omega)⟩
    · -- it is
      refine ⟨fun hcond => absurd hcond (by omega), fun _ => ?_⟩
      refine run_blocksLoop_none hcont hlos hempty fun step heap hrun => ?_
      obtain ⟨c, hstep, hdead'⟩ := rangeCases_reached hdead hlt (hbelow.le_end hr)
        (fun h₀ => hbefore (Or.inl h₀)) (by omega) (hbatch.symm.trans hrun)
      exact ⟨c, _, hstep, hdead'⟩

end Loop

/-! ## 4. The slice -/

section Slice

variable {σ : Type}

/-- The evaluation of a block string starts: there is no callback, or it lets it start. -/
def Starts (pCallback : Option (MQLResultCallback σ)) (bStoreSheafInMemory : Bool) (s s₀ : σ) :
    Prop :=
  match pCallback with
  | none => bStoreSheafInMemory = true ∧ s₀ = s
  | some callback => callback.startSheaf s = ((true, bStoreSheafInMemory), s₀)

theorem run_rBlocksOfBlockString {pCallback : Option (MQLResultCallback σ)}
    {bStoreSheafInMemory : Bool} {s s₀ : σ} (h : Starts pCallback bStoreSheafInMemory s s₀)
    (pUR : Option UsingRange) (getSMI : Eval σ (List Int))
    (rBlockString : Int → Eval σ (List Straw)) :
    (rBlocksOfBlockString pCallback true pUR getSMI rBlockString).run s
      = (rBlockStringFrom pCallback true bStoreSheafInMemory pUR getSMI rBlockString).run s₀ := by
  cases pCallback with
  | none =>
    obtain ⟨rfl, rfl⟩ := h
    rfl
  | some callback =>
    have hstart : StateT.run (fun s => some (callback.startSheaf s) : Eval σ (Bool × Bool)) s
        = some ((true, bStoreSheafInMemory), s₀) := congrArg some h
    exact run_bind_of_some hstart

/-- The end of `R_blocks` returns a sheaf, which is empty if nothing was stored. -/
theorem run_finishBlocks_nil (pCallback : Option (MQLResultCallback σ))
    (bContinueExecution bSuccess : Bool) (s : σ) :
    ∃ sheaf s', (finishBlocks pCallback bContinueExecution bSuccess []).run s = some (sheaf, s') ∧
      sheaf.straws = [] := by
  cases pCallback <;> cases bContinueExecution <;> cases bSuccess <;> exact ⟨_, _, rfl, rfl⟩

/-- The straws with index `s` to `e`. -/
def slice (pUR : UsingRange) (straws : List Straw) : List Straw :=
  (straws.drop pUR.start.toNat).take (pUR.end_ - pUR.start + 1).toNat

/-- **`RANGE(s, e)` returns the slice** exactly when there are no straws at all, or fewer than
`s`; in all other cases the run fails. -/
theorem usingRange_iff (pCallback : Option (MQLResultCallback σ)) (pUR : UsingRange)
    (hr : pUR.weed = true) (getSMI : Eval σ (List Int)) (rBlockString : Int → Eval σ (List Straw))
    (bStoreSheafInMemory : Bool) (s s₀ s₁ : σ) (batches : List (List Straw))
    (hstart : Starts pCallback bStoreSheafInMemory s s₀)
    (hbatches : (getSMI >>= fun smi => smi.mapM rBlockString).run s₀ = some (batches, s₁)) :
    (∃ sheaf s', (rBlocksOfBlockString pCallback true (some pUR) getSMI rBlockString).run s
        = some (sheaf, s') ∧ sheaf.straws = slice pUR (filteredBatches batches)) ↔
      (filteredBatches batches).length = 0 ∨
        ((filteredBatches batches).length : Int) < pUR.start := by
  obtain ⟨smi, s₂, hsmi, hmap⟩ := bind_eq_some.mp hbatches
  have hloop := run_blocksLoop pCallback bStoreSheafInMemory (Heap.empty (α := List Straw)).next
    hr smi
    { heap := Heap.empty.alloc [], count := 0, bSuccess := false, bContinueExecution := true }
    s₂ s₁ batches rfl ⟨Int.le_refl 0, Or.inl rfl⟩ rfl hmap
  simp only [Int.zero_add] at hloop
  rw [run_rBlocksOfBlockString hstart, rBlockStringFrom, run_bind_of_some hsmi]
  constructor
  · rintro ⟨sheaf, s', hrun, -⟩
    by_contra hcond
    rw [run_bind_of_none (hloop.2 hcond)] at hrun
    cases hrun
  · intro hcond
    obtain ⟨v, hv, hres⟩ := hloop.1 hcond
    obtain ⟨sheaf, s', hfinish, hstraws⟩ :=
      run_finishBlocks_nil pCallback v.bContinueExecution v.bSuccess s₁
    refine ⟨sheaf, s', ?_, ?_⟩
    · rw [run_bind_of_some hv]
      exact (run_bind_of_some (run_ofOption_some (Heap.run_read hres) s₁)).trans hfinish
    · have hdrop : (filteredBatches batches).length ≤ pUR.start.toNat := by omega
      rw [hstraws, slice, List.drop_eq_nil_of_le hdrop, List.take_nil]

/-- A straw of one object. -/
def objectStraw : Straw :=
  Straw.new.append
    (MatchedObject.ofObject 7 (SetOfMonads.empty.addMonad 1) none ⟨1, .kRetrieve⟩)

/-- `RANGE(2, 5)` on a single straw. -/
theorem usingRange_iff_example :
    (∃ sheaf s', (rBlocksOfBlockString none true (some ⟨2, 5⟩) (pure [1])
        fun _ => pure [objectStraw]).run () = some (sheaf, s') ∧
        sheaf.straws = slice ⟨2, 5⟩ (filteredBatches [[objectStraw]])) ↔
      (filteredBatches [[objectStraw]]).length = 0 ∨
        ((filteredBatches [[objectStraw]]).length : Int) < (UsingRange.mk 2 5).start :=
  usingRange_iff none ⟨2, 5⟩ rfl (pure [1]) (fun _ => pure [objectStraw]) true () () ()
    [[objectStraw]] ⟨rfl, rfl⟩ rfl

/-- `RANGE(0, 9)` on a single straw uses the deleted list. -/
theorem usingRange_breaks :
    ¬ ∃ sheaf s', (rBlocksOfBlockString none true (some ⟨0, 9⟩) (pure [1])
        fun _ => pure [objectStraw]).run () = some (sheaf, s') ∧
        sheaf.straws = slice ⟨0, 9⟩ (filteredBatches [[objectStraw]]) := by
  rintro ⟨sheaf, s', hrun, -⟩
  cases hrun

end Slice

end Emdros
