/-
# What reaches a sheaf (`mql_R.cpp`, invariants I9 and I11)

A matched object of a `NORETRIEVE` block and an `EMPTY_mo` take part in the matching, and are
taken out where a list of straws is put into a sheaf: `R_blocks` appends with
`appendAndSubsumeWhileFiltering`.  For an unordered group it appends with `appendAndSubsume`,
which takes out nothing.  So a sheaf is `Retrievable`, at every depth, if no unordered group has
a `NORETRIEVE` object block.

`InnerRetrievable` says of a list of straws that the inner sheaves in it are retrievable, whatever
the matched objects themselves are.  This module has what each function of the evaluator ensures
if those it calls do; `WatchedGroups` goes through the recursion.
-/
import Emdros.MQL.Retrieval
import Emdros.MQL.UsingRange

namespace Emdros

open Partial

/-! ## 1. Retrievable sheaves -/

/-- Every straw is non-empty and all its matched objects are to be retrieved; so in the inner
sheaves. -/
inductive Sheaf.Retrievable : Sheaf → Prop
  | fail : Retrievable .fail
  | plist (straws : List Straw) (nonempty : ∀ straw ∈ straws, straw.list ≠ [])
      (retrieve : ∀ straw ∈ straws, ∀ mo ∈ straw.list, mo.getRetrieve = true)
      (inner : ∀ straw ∈ straws, ∀ mo ∈ straw.list, ∀ sheaf, mo.getSheaf = some sheaf →
        Retrievable sheaf) : Retrievable (.plist straws)

/-- The inner sheaf, if there is one, is retrievable. -/
def MatchedObject.InnerRetrievable (mo : MatchedObject) : Prop :=
  ∀ sheaf, mo.getSheaf = some sheaf → sheaf.Retrievable

/-- The straws that filtering leaves. -/
def Filtered (los : List Straw) : Prop :=
  ∀ straw ∈ los, straw.list ≠ [] ∧ ∀ mo ∈ straw.list, mo.getRetrieve = true

/-- The inner sheaf of every matched object in the straws is retrievable. It is what the functions
below `R_blocks` keep; what is to be retrieved of the straws themselves is only chosen in
`R_blocks`. -/
def InnerRetrievable (los : List Straw) : Prop :=
  ∀ straw ∈ los, ∀ mo ∈ straw.list, mo.InnerRetrievable

/-- A sheaf of straws is retrievable when it was filtered and its inner sheaves are. -/
theorem retrievable_plist_iff {straws : List Straw} :
    (Sheaf.plist straws).Retrievable ↔ Filtered straws ∧ InnerRetrievable straws := by
  constructor
  · intro h
    cases h with
    | plist _ nonempty retrieve inner =>
      exact ⟨fun straw hs => ⟨nonempty straw hs, retrieve straw hs⟩, inner⟩
  · rintro ⟨hfiltered, hinner⟩
    exact .plist straws (fun straw hs => (hfiltered straw hs).1)
      (fun straw hs => (hfiltered straw hs).2) hinner

theorem MatchedObject.InnerRetrievable.copyMO {mo : MatchedObject} (h : mo.InnerRetrievable) :
    mo.copyMO.InnerRetrievable := by
  intro sheaf hsheaf
  rw [copyMO_getSheaf] at hsheaf
  exact h sheaf hsheaf

theorem MatchedObject.innerRetrievable_ofEmpty (m : Int) : (ofEmpty m).InnerRetrievable := by
  intro sheaf hsheaf
  rw [ofEmpty_getSheaf] at hsheaf
  cases hsheaf

namespace InnerRetrievable

variable {los los' : List Straw} {straw : Straw} {mo : MatchedObject}

theorem nil : InnerRetrievable [] := fun _ h => absurd h List.not_mem_nil

theorem append (h : InnerRetrievable los) (h' : InnerRetrievable los') :
    InnerRetrievable (los ++ los') := by
  intro straw hs
  rcases List.mem_append.mp hs with hs | hs
  · exact h straw hs
  · exact h' straw hs

theorem singleton (h : mo.InnerRetrievable) : InnerRetrievable [Straw.new.append mo] := by
  intro straw hs mo' hmo
  rw [List.mem_singleton.mp hs, Straw.append_list, Straw.new_list, List.nil_append,
    List.mem_singleton] at hmo
  rw [hmo]
  exact h

theorem copies (h : ∀ mo ∈ straw.list, mo.InnerRetrievable) :
    ∀ mo ∈ straw.list.map MatchedObject.copyMO, mo.InnerRetrievable := by
  intro mo hmo
  obtain ⟨mo', hmo', rfl⟩ := List.mem_map.mp hmo
  exact (h mo' hmo').copyMO

theorem prepend (h : InnerRetrievable los) (h' : ∀ mo ∈ straw.list, mo.InnerRetrievable) :
    InnerRetrievable (los.map fun s => s.prepend straw) := by
  intro s hs mo hmo
  obtain ⟨s', hs', rfl⟩ := List.mem_map.mp hs
  rw [Straw.prepend_list] at hmo
  rcases List.mem_append.mp hmo with hmo | hmo
  · exact copies h' mo hmo
  · exact h s' hs' mo hmo

theorem prependToAll (h : InnerRetrievable los) (h' : ∀ mo ∈ straw.list, mo.InnerRetrievable) :
    InnerRetrievable (prependToAll straw los) :=
  prepend (fun s hs => h s (List.mem_filter.mp hs).1) h'

theorem copy (h : InnerRetrievable los) : InnerRetrievable (los.map Straw.copy) := by
  intro s hs mo hmo
  obtain ⟨s', hs', rfl⟩ := List.mem_map.mp hs
  exact copies (h s' hs') mo hmo

theorem appendACopy (h : InnerRetrievable los) (h' : InnerRetrievable los') :
    InnerRetrievable (ListOfStraws.appendACopy los los') :=
  h.append h'.copy

theorem join (h : InnerRetrievable los) (h' : ∀ mo ∈ straw.list, mo.InnerRetrievable) :
    InnerRetrievable (ListOfStraws.join los straw) := by
  unfold ListOfStraws.join
  split
  · intro s hs mo hmo
    rw [List.mem_singleton.mp hs] at hmo
    exact copies h' mo hmo
  · exact prepend h h'

theorem filtered (h : InnerRetrievable los) : InnerRetrievable (ListOfStraws.filtered los) := by
  intro s hs mo hmo
  obtain ⟨s', hs', rfl⟩ := List.mem_map.mp (List.mem_filter.mp hs).1
  rw [Straw.filterRetrieve_list] at hmo
  obtain ⟨mo', hmo', rfl⟩ := List.mem_map.mp hmo
  exact (h s' hs' mo' (List.mem_filter.mp hmo').1).copyMO

theorem counted (h : InnerRetrievable los) (startIndex count : Int) : ∀ strawCount strawIndex,
    InnerRetrievable (ListOfStraws.counted startIndex count strawCount strawIndex los) := by
  induction los with
  | nil => exact fun _ _ => nil
  | cons straw los ih =>
    intro strawCount strawIndex
    have hrest : ∀ n, InnerRetrievable (if strawIndex + 1 > startIndex + count then []
        else ListOfStraws.counted startIndex count n (strawIndex + 1) los) := by
      intro n
      split
      · exact nil
      · exact ih (fun s hs => h s (List.mem_cons_of_mem straw hs)) _ _
    unfold ListOfStraws.counted
    dsimp only
    split
    · intro s hs
      rcases List.mem_cons.mp hs with rfl | hs
      · exact copies (h straw List.mem_cons_self)
      · exact hrest _ s hs
    · exact hrest _

end InnerRetrievable

/-- Filtering does what its name says. -/
theorem filtered_filtered (los : List Straw) : Filtered (ListOfStraws.filtered los) := by
  intro straw hs
  obtain ⟨hmem, hne⟩ := List.mem_filter.mp hs
  obtain ⟨s, -, rfl⟩ := List.mem_map.mp hmem
  refine ⟨?_, ?_⟩
  · intro hnil
    rw [Straw.isEmpty, hnil] at hne
    cases hne
  · intro mo hmo
    rw [Straw.filterRetrieve_list] at hmo
    obtain ⟨mo', hmo', rfl⟩ := List.mem_map.mp hmo
    rw [MatchedObject.copyMO_getRetrieve]
    exact (List.mem_filter.mp hmo').2

theorem Filtered.append {los los' : List Straw} (h : Filtered los) (h' : Filtered los') :
    Filtered (los ++ los') := by
  intro straw hs
  rcases List.mem_append.mp hs with hs | hs
  · exact h straw hs
  · exact h' straw hs

/-! ## 2. The lists of `R_blocks` -/

section Lists

variable {pResultLOS : Nat}

/-- The inner sheaves are retrievable in all lists, and the result is filtered. -/
structure ListsInv (pResultLOS : Nat) (h : Heap (List Straw)) : Prop where
  inner : ∀ p los, h.cell p = some los → InnerRetrievable los
  result : ∀ los, h.cell pResultLOS = some los → Filtered los
  old : pResultLOS < h.next

/-- A list other than the result may change as long as its inner sheaves are retrievable. -/
theorem ListsInv.set {h : Heap (List Straw)} (hI : ListsInv pResultLOS h) {p : Nat}
    {v : Option (List Straw)} (hp : p < h.next) (hv : ∀ los, v = some los → InnerRetrievable los)
    (hres : ∀ los, v = some los → p = pResultLOS → Filtered los) :
    ListsInv pResultLOS (h.set p v hp) where
  inner := by
    intro q los hq
    by_cases hqp : q = p
    · rw [hqp, Heap.cell_set_self] at hq
      exact hv los hq
    · rw [Heap.cell_set _ _ _ hqp] at hq
      exact hI.inner q los hq
  result := by
    intro los hlos
    by_cases hqp : pResultLOS = p
    · rw [hqp, Heap.cell_set_self] at hlos
      exact hres los hlos hqp.symm
    · rw [Heap.cell_set _ _ _ hqp] at hlos
      exact hI.result los hlos
  old := hI.old

/-- A new list may hold any straws with retrievable inner sheaves: it is not the result yet. -/
theorem ListsInv.alloc {h : Heap (List Straw)} (hI : ListsInv pResultLOS h) {los : List Straw}
    (hlos : InnerRetrievable los) : ListsInv pResultLOS (h.alloc los) where
  inner := by
    intro q los' hq
    by_cases hqn : q = h.next
    · rw [hqn, Heap.cell_alloc_self] at hq
      cases hq
      exact hlos
    · exact hI.inner q los' ((Function.update_of_ne hqn ..).symm.trans hq)
  result := by
    intro los' hlos'
    have hne : pResultLOS ≠ h.next := Nat.ne_of_lt hI.old
    exact hI.result los' ((Function.update_of_ne hne ..).symm.trans hlos')
  old := Nat.lt_succ_of_lt hI.old

theorem triple_new :
    Triple (ListsInv pResultLOS) (Heap.new []) fun p h => ListsInv pResultLOS h ∧ pResultLOS ≠ p := by
  intro h hI p h' hrun
  cases hrun
  exact ⟨hI.alloc InnerRetrievable.nil, Nat.ne_of_lt hI.old⟩

/-- Reading a list, and writing it with more at its end; then deleting the one read. -/
theorem triple_subsume {this pOther : Nat} {added : List Straw → List Straw}
    (hadded : ∀ los, InnerRetrievable los → InnerRetrievable (added los))
    (hres : this = pResultLOS → ∀ los, Filtered (added los)) :
    Triple (ListsInv pResultLOS) (do
      let other ← Heap.read pOther
      let mine ← Heap.read this
      Heap.write this (mine ++ added other)
      Heap.delete pOther
      pure ((added other).length : Int)) fun _ => ListsInv pResultLOS := by
  intro h hI n h' hrun
  obtain ⟨other, _, hother, hrun⟩ := bind_eq_some.mp hrun
  obtain ⟨mine, _, hmine, hrun⟩ := bind_eq_some.mp hrun
  obtain ⟨_, h₁, hwrite, hrun⟩ := bind_eq_some.mp hrun
  obtain ⟨_, h₂, hdelete, hend⟩ := bind_eq_some.mp hrun
  obtain ⟨hother, rfl⟩ := Heap.read_eq_some hother
  obtain ⟨hmine, rfl⟩ := Heap.read_eq_some hmine
  cases pure_eq_some.mp hend
  have hI₁ : ListsInv pResultLOS h₁ := by
    cases (Heap.run_assign hmine _).symm.trans hwrite
    refine hI.set (Heap.lt_next hmine) ?_ ?_
    · intro los hlos
      cases hlos
      exact (hI.inner _ _ hmine).append (hadded _ (hI.inner _ _ hother))
    · intro los hlos hthis
      cases hlos
      exact (hI.result _ (hthis ▸ hmine)).append (hres hthis _)
  obtain ⟨⟨los, hlos⟩, -⟩ := Heap.assign_eq_some hdelete
  cases (Heap.run_assign hlos _).symm.trans hdelete
  exact hI₁.set (Heap.lt_next hlos) (fun _ h => nomatch h) (fun _ h => nomatch h)

/-- Filtering keeps the lists, also where the result is appended to. -/
theorem triple_appendAndSubsumeWhileFiltering (this pOther : Nat) :
    Triple (ListsInv pResultLOS) (appendAndSubsumeWhileFiltering this pOther)
      fun _ => ListsInv pResultLOS :=
  triple_subsume (fun _ h => h.filtered) fun _ los => filtered_filtered los

/-- Counting does not filter, so it keeps the lists only where something else than the result is
appended to. -/
theorem triple_appendAndSubsumeWhileCounting {this : Nat} (hthis : pResultLOS ≠ this)
    (pOther : Nat) (startIndex count : Int) :
    Triple (ListsInv pResultLOS) (appendAndSubsumeWhileCounting this pOther startIndex count)
      fun _ => ListsInv pResultLOS :=
  triple_subsume (fun _ h => h.counted startIndex count 0 0) fun h => absurd h.symm hthis

theorem triple_delete (p : Nat) :
    Triple (ListsInv pResultLOS) (Heap.delete p) fun _ => ListsInv pResultLOS := by
  intro h hI u h' hrun
  obtain ⟨⟨los, hlos⟩, -⟩ := Heap.assign_eq_some hrun
  cases (Heap.run_assign hlos _).symm.trans hrun
  exact hI.set (Heap.lt_next hlos) (fun _ h => nomatch h) (fun _ h => nomatch h)

/-- Whatever case of the range applies. -/
theorem triple_rangeCases (pUR : UsingRange) (count : Int) (pLOS pIntermediateLOS : Nat)
    (losSize : Int) :
    Triple (ListsInv pResultLOS) (rangeCases pUR count pLOS pIntermediateLOS losSize)
      fun _ => ListsInv pResultLOS := by
  have hdrop : ∀ step : RangeStep, Triple (ListsInv pResultLOS)
      (Heap.delete pIntermediateLOS >>= fun _ => pure step) fun _ => ListsInv pResultLOS :=
    fun step => (triple_delete pIntermediateLOS).bind fun _ => Triple.pure fun _ h => h
  have hcut : ∀ (other : Nat) (startIndex n count : Int), Triple (ListsInv pResultLOS)
      (Heap.new [] >>= fun p => appendAndSubsumeWhileCounting p other startIndex n >>= fun _ =>
        Heap.delete pLOS >>= fun _ => pure (RangeStep.store count p))
      fun _ => ListsInv pResultLOS := by
    intro other startIndex n count
    refine triple_new.bind fun p h hp => ?_
    have hkeep : Triple (ListsInv pResultLOS)
        (appendAndSubsumeWhileCounting p other startIndex n >>= fun _ =>
          Heap.delete pLOS >>= fun _ => pure (RangeStep.store count p))
        fun _ => ListsInv pResultLOS :=
      (triple_appendAndSubsumeWhileCounting hp.2 other startIndex n).bind fun _ =>
        (triple_delete pLOS).bind fun _ => Triple.pure fun _ h => h
    exact hkeep h hp.1
  unfold rangeCases
  refine Triple.ite (fun _ => hdrop _) fun _ => ?_
  refine Triple.ite (fun _ => hdrop _) fun _ => ?_
  refine Triple.ite (fun _ => hdrop _) fun _ => ?_
  refine Triple.ite (fun _ => ?_) fun _ => ?_
  · exact Triple.ite (fun _ => Triple.pure fun _ h => h) fun _ => Triple.failure
  refine Triple.ite (fun _ => hcut _ _ _ _) fun _ => ?_
  exact Triple.ite (fun _ => hcut _ _ _ _) fun _ => Triple.failure

/-- The lists of one batch: those of a range are filtered into a list of their own first. -/
theorem triple_rangeBatch (pUR : Option UsingRange) (count : Int) (pLOS : Nat) :
    Triple (ListsInv pResultLOS) (rangeBatch pUR count pLOS) fun _ => ListsInv pResultLOS := by
  cases pUR with
  | none => exact Triple.pure fun _ h => h
  | some pUR =>
    refine (triple_new.mono fun _ _ h => h.1).bind fun p => ?_
    exact (triple_appendAndSubsumeWhileFiltering p pLOS).bind fun n =>
      triple_rangeCases pUR count pLOS p n

end Lists

/-! ## 3. The loop of `R_blocks` -/

section Loop

variable {σ : Type} {pResultLOS : Nat} {heap : Heap (List Straw)}
  {rBlockString : Int → Eval σ (List Straw)}

/-- The straws of a batch reach the result through filtering only. -/
theorem ensures_storeLOS (pCallback : Option (MQLResultCallback σ)) (bStoreSheafInMemory : Bool)
    (pIntermediateLOS : Nat) (hI : ListsInv pResultLOS heap) :
    Ensures (storeLOS pCallback bStoreSheafInMemory pResultLOS pIntermediateLOS heap)
      fun r => ListsInv pResultLOS r.1 := by
  have happend : Ensures (ofOption
      ((appendAndSubsumeWhileFiltering pResultLOS pIntermediateLOS).run heap) : Eval σ _)
      fun r => ListsInv pResultLOS r.2 :=
    Ensures.of_triple (triple_appendAndSubsumeWhileFiltering pResultLOS pIntermediateLOS) hI
  cases pCallback with
  | none => exact happend.bind fun _ hr => Ensures.pure hr
  | some callback =>
    refine Ensures.bind_right fun los => Ensures.bind_right fun bContinue => ?_
    refine Ensures.ite (fun _ => ?_) fun _ => ?_
    · exact happend.bind fun _ hr => Ensures.pure hr
    · exact (Ensures.of_triple (triple_delete pIntermediateLOS) hI).bind fun _ hr =>
        Ensures.pure hr

/-- The loop over the start monads, by induction on those that are left. -/
theorem ensures_blocksLoop (pCallback : Option (MQLResultCallback σ)) (bStoreSheafInMemory : Bool)
    (pUR : Option UsingRange) (hrBlockString : ∀ Sm, Ensures (rBlockString Sm) InnerRetrievable) :
    ∀ (smi : List Int) (v : BlocksLoop), ListsInv pResultLOS v.heap →
      Ensures (blocksLoop pCallback bStoreSheafInMemory pUR pResultLOS rBlockString smi v)
        fun v' => ListsInv pResultLOS v'.heap
  | [], v, hI => Ensures.pure hI
  | Sm :: smi, v, hI => by
    unfold blocksLoop
    refine Ensures.ite (fun _ => ?_) fun _ => Ensures.pure hI
    refine (hrBlockString Sm).bind fun los hlos => ?_
    refine Ensures.ite (fun _ => ?_) fun _ => ?_
    · exact ensures_blocksLoop pCallback bStoreSheafInMemory pUR hrBlockString smi v hI
    · refine (Ensures.of_triple (triple_rangeBatch pUR v.count v.heap.next) (hI.alloc hlos)).bind
        fun r hr => ?_
      obtain ⟨step, heap⟩ := r
      cases step with
      | continue_ count =>
        exact ensures_blocksLoop pCallback bStoreSheafInMemory pUR hrBlockString smi _ hr
      | break_ count => exact Ensures.pure hr
      | store count pIntermediateLOS =>
        refine (ensures_storeLOS pCallback bStoreSheafInMemory pIntermediateLOS hr).bind
          fun r' hr' => ?_
        exact ensures_blocksLoop pCallback bStoreSheafInMemory pUR hrBlockString smi _ hr'

/-- Without a callback the sheaf has the straws of the result; with one it has none. -/
theorem ensures_finishBlocks (pCallback : Option (MQLResultCallback σ)) (bContinue bSuccess : Bool)
    {los : List Straw} (hlos : pCallback = none → bContinue = true → bSuccess = true →
      (Sheaf.plist los).Retrievable) :
    Ensures (finishBlocks pCallback bContinue bSuccess los) Sheaf.Retrievable := by
  have hempty : (Sheaf.plist []).Retrievable :=
    retrievable_plist_iff.mpr ⟨fun _ h => absurd h List.not_mem_nil, InnerRetrievable.nil⟩
  intro s _ sheaf s' hrun
  cases pCallback <;> cases bContinue <;> cases bSuccess <;> cases hrun
  case none.true.true => exact hlos rfl rfl rfl
  case some.true.true => exact hempty
  all_goals exact .fail

/-- Before the first start monad the result has no straws. -/
theorem listsInv_empty : ListsInv 0 ((Heap.empty : Heap (List Straw)).alloc []) where
  inner := by
    intro p los hp
    by_cases h : p = 0
    · rw [h] at hp
      cases hp
      exact InnerRetrievable.nil
    · cases (Function.update_of_ne h ..).symm.trans hp
  result := by
    intro los hlos
    cases hlos
    exact fun _ h => absurd h List.not_mem_nil
  old := Nat.zero_lt_one

/-- A block string: if its lists have retrievable inner sheaves, `R_blocks` filters the rest. -/
theorem ensures_rBlockStringFrom (pCallback : Option (MQLResultCallback σ))
    (bContinue bStoreSheafInMemory : Bool) (pUR : Option UsingRange) (getSMI : Eval σ (List Int))
    (hrBlockString : ∀ Sm, Ensures (rBlockString Sm) InnerRetrievable) :
    Ensures (rBlockStringFrom pCallback bContinue bStoreSheafInMemory pUR getSMI rBlockString)
      Sheaf.Retrievable := by
  refine Ensures.bind_right fun smi => ?_
  refine (ensures_blocksLoop pCallback bStoreSheafInMemory pUR hrBlockString smi _
    listsInv_empty).bind fun v hv => ?_
  refine (Ensures.ofOption fun r hr => ?_).bind fun r hr =>
    ensures_finishBlocks pCallback v.bContinueExecution v.bSuccess fun _ _ _ => hr
  obtain ⟨hcell, -⟩ := Heap.read_eq_some hr
  exact retrievable_plist_iff.mpr ⟨hv.result r.1 hcell, hv.inner _ r.1 hcell⟩

/-- With a callback that refuses the query the sheaf is the failed one; else the loop gives it. -/
theorem ensures_rBlocksOfBlockString (pCallback : Option (MQLResultCallback σ)) (bContinue : Bool)
    (pUR : Option UsingRange) (getSMI : Eval σ (List Int))
    (hrBlockString : ∀ Sm, Ensures (rBlockString Sm) InnerRetrievable) :
    Ensures (rBlocksOfBlockString pCallback bContinue pUR getSMI rBlockString)
      Sheaf.Retrievable := by
  cases pCallback with
  | none => exact ensures_rBlockStringFrom none bContinue true pUR getSMI hrBlockString
  | some callback =>
    refine Ensures.bind_right fun r => Ensures.ite (fun _ => ?_) fun _ => ?_
    · intro s _ sheaf s' hrun
      cases hrun
      exact .fail
    · exact ensures_rBlockStringFrom (some callback) r.1 r.2 pUR getSMI hrBlockString

end Loop

/-! ## 4. Objects, gaps and strings of blocks -/

/-- The inner sheaf, if there is one, is retrievable. -/
def OptRetrievable (pInner : Option Sheaf) : Prop := ∀ sheaf, pInner = some sheaf → sheaf.Retrievable

theorem optRetrievable_none : OptRetrievable none := fun _ h => nomatch h

/-- What `R_object_block` returns: straws of one object each, to be retrieved when the block
is. -/
def ObjectStraws (P : Option Sheaf → Prop) (obb : ObjectBlockBase) (los : List Straw) : Prop :=
  ∀ straw ∈ los, ∃ mo, straw.list = [mo] ∧ mo.getRetrieve = obb.isToBeRetrieved ∧ P mo.getSheaf

namespace ObjectStraws

variable {P : Option Sheaf → Prop} {obb : ObjectBlockBase} {los los' : List Straw}

theorem nil : ObjectStraws P obb [] := fun _ h => absurd h List.not_mem_nil

theorem append (h : ObjectStraws P obb los) (h' : ObjectStraws P obb los') :
    ObjectStraws P obb (los ++ los') := by
  intro straw hs
  rcases List.mem_append.mp hs with hs | hs
  · exact h straw hs
  · exact h' straw hs

theorem innerRetrievable (h : ObjectStraws OptRetrievable obb los) : InnerRetrievable los := by
  intro straw hs mo hmo
  obtain ⟨mo', hlist, -, hinner⟩ := h straw hs
  rw [hlist, List.mem_singleton] at hmo
  rw [hmo]
  exact hinner

/-- Of a block that is to be retrieved they need no filtering. -/
theorem filtered (h : ObjectStraws P obb los) (hobb : obb.isToBeRetrieved = true) :
    Filtered los := by
  intro straw hs
  obtain ⟨mo, hlist, hretrieve, -⟩ := h straw hs
  refine ⟨?_, ?_⟩
  · rw [hlist]
    exact List.cons_ne_nil mo []
  · intro mo' hmo'
    rw [hlist, List.mem_singleton] at hmo'
    rw [hmo', hretrieve, hobb]

/-- Of any other block all of them would be filtered out. -/
theorem not_filtered (h : ObjectStraws P obb los) (hobb : obb.isToBeRetrieved = false)
    (hlos : los ≠ []) : ¬ Filtered los := by
  intro hfiltered
  obtain ⟨straw, hs⟩ := List.exists_mem_of_ne_nil los hlos
  obtain ⟨mo, hlist, hretrieve, -⟩ := h straw hs
  have hmo : mo ∈ straw.list := by
    rw [hlist]
    exact List.mem_singleton_self mo
  have htrue := (hfiltered straw hs).2 mo hmo
  rw [hretrieve, hobb] at htrue
  cases htrue

end ObjectStraws

section Pieces

variable {C S σ : Type} {env : QueryEnv C S σ} {U Su : SetOfMonads} {Sm : Int}
  {rOptBlocks : SetOfMonads → SetOfMonads → Eval σ (Option Sheaf)}

theorem ensures_innerSheaf {P : Option Sheaf → Prop} (hnone : P none) (noOptBlocks : Bool)
    {rOpt : Eval σ (Option Sheaf)} (hrOpt : Ensures rOpt P) :
    Ensures (innerSheaf noOptBlocks rOpt) P :=
  Ensures.ite (fun _ => Ensures.pure hnone) fun _ => hrOpt

theorem ensures_rObjectBlockInst {P : Option Sheaf → Prop} (hnone : P none)
    (info : ObjectBlockInfo C) (noOptBlocks : Bool)
    (hrOptBlocks : ∀ U Su, Ensures (rOptBlocks U Su) P) :
    Ensures (rObjectBlockInst env U Su Sm info noOptBlocks rOptBlocks)
      (ObjectStraws P info.obb) := by
  refine Ensures.foldlM _ ObjectStraws.nil fun los o _ hlos => ?_
  refine Ensures.bind_right fun bDoObject => ?_
  refine Ensures.ite (fun _ => ?_) fun _ => Ensures.pure hlos
  have hinner := ensures_innerSheaf hnone noOptBlocks
    (Ensures.bind_right (x := ofOption (SetOfMonads.empty.add o.first o.last))
      fun Uping => hrOptBlocks Uping o.monads)
  refine hinner.bind fun pInner hpInner => ?_
  refine Ensures.ite (fun _ => Ensures.pure hlos) fun _ => Ensures.pure (hlos.append ?_)
  intro straw hs
  rw [List.mem_singleton.mp hs]
  exact ⟨_, rfl, MatchedObject.ofObject_getRetrieve o.idD_nonneg .., hpInner⟩

theorem ensures_rGap (retrieval : ERetrieval) (obb : ObjectBlockBase) (noOptBlocks : Bool)
    (hrOptBlocks : ∀ U Su, Ensures (rOptBlocks U Su) OptRetrievable) (emptyMo : Bool) :
    Ensures (rGap Su Sm retrieval obb noOptBlocks rOptBlocks emptyMo)
      fun pMO => InnerRetrievable (losOfGap pMO) := by
  have hnil : Ensures (pure none : Eval σ (Option MatchedObject))
      fun pMO => InnerRetrievable (losOfGap pMO) := Ensures.pure InnerRetrievable.nil
  refine Ensures.bind_right fun gap => ?_
  cases gap with
  | none =>
    refine Ensures.ite (fun _ => Ensures.pure ?_) fun _ => hnil
    exact InnerRetrievable.singleton (MatchedObject.innerRetrievable_ofEmpty (Sm - 1))
  | some m =>
    refine Ensures.bind_right fun somn => ?_
    have hinner := ensures_innerSheaf optRetrievable_none noOptBlocks (hrOptBlocks somn somn)
    refine hinner.bind fun pInner hpInner => ?_
    refine Ensures.ite (fun _ => hnil) fun _ => Ensures.pure ?_
    exact InnerRetrievable.singleton hpInner

theorem ensures_rNOTEXIST (afterNonNOTEXIST : Bool)
    (getSMI : SetOfMonads → SetOfMonads → Int → Eval σ (List Int))
    (rObjectBlock : SetOfMonads → SetOfMonads → Int → Eval σ (List Straw)) :
    Ensures (rNOTEXIST U Su Sm afterNonNOTEXIST getSMI rObjectBlock) InnerRetrievable := by
  refine Ensures.bind_right fun smi => Ensures.bind_right fun bItWasThere => ?_
  refine Ensures.ite (fun _ => Ensures.pure InnerRetrievable.nil) fun _ => Ensures.pure ?_
  exact InnerRetrievable.singleton (MatchedObject.innerRetrievable_ofEmpty (Sm - 1))

variable {rFirst : Eval σ (List Straw)} {rRest : Int → Eval σ (List Straw)}

theorem ensures_rBlockString2NonPowerBlock (node : Nat)
    (hrFirst : Ensures rFirst InnerRetrievable) (hrRest : ∀ Sm, Ensures (rRest Sm) InnerRetrievable) :
    Ensures (rBlockString2NonPowerBlock env node rFirst rRest) InnerRetrievable := by
  refine hrFirst.bind fun bs1LOS hbs1LOS => ?_
  refine Ensures.foldlM _ InnerRetrievable.nil fun los bs1Straw hmem hlos => ?_
  refine Ensures.bind_right fun _ => (hrRest _).bind fun bs2LOS hbs2LOS => Ensures.pure ?_
  exact hlos.append (hbs2LOS.prependToAll (hbs1LOS bs1Straw hmem))

theorem ensures_rBlockString2PowerBlock (maxRange : Int) (node : Nat) (power : Power)
    (hrFirst : Ensures rFirst InnerRetrievable) (getSMI : Int → Eval σ (List Int))
    (hrRest : ∀ Sm, Ensures (rRest Sm) InnerRetrievable) :
    Ensures (rBlockString2PowerBlock env U Su maxRange node power rFirst getSMI rRest)
      InnerRetrievable := by
  refine hrFirst.bind fun bs1LOS hbs1LOS => ?_
  refine Ensures.foldlM _ InnerRetrievable.nil fun los bs1Straw hmem hlos => ?_
  refine Ensures.bind_right fun _ => Ensures.ite (fun _ => ?_) fun _ => Ensures.pure hlos
  refine Ensures.bind_right fun smi => Ensures.foldlM _ hlos fun los Smping _ hlos => ?_
  refine (hrRest Smping).bind fun bs2LOS hbs2LOS => Ensures.pure ?_
  exact hlos.append (hbs2LOS.prependToAll (hbs1LOS bs1Straw hmem))

/-- One round joins the straws of the round before with those of the block string. -/
theorem ensures_starRound (hrRest : ∀ Sm, Ensures (rRest Sm) InnerRetrievable)
    {los : List Straw} (hlos : InnerRetrievable los) :
    Ensures (starRound rRest los) fun v => InnerRetrievable v.1 := by
  refine Ensures.foldlM _ InnerRetrievable.nil fun v straw hmem hv => ?_
  refine (hrRest _).bind fun los3 hlos3 => ?_
  refine Ensures.ite (fun _ => Ensures.pure hv) fun _ => Ensures.pure ?_
  exact hv.append (hlos3.join (hlos straw hmem))

theorem ensures_starLoop (starSOM : SetOfMonads)
    (hrRest : ∀ Sm, Ensures (rRest Sm) InnerRetrievable) :
    ∀ (fuel : Nat) (count : Int) (los : List Straw) (somIt : List MonadSetElement)
      (resultLOS : List Straw), InnerRetrievable los → InnerRetrievable resultLOS →
      Ensures (starLoop starSOM rRest fuel count los somIt resultLOS) InnerRetrievable := by
  intro fuel
  induction fuel with
  | zero => exact fun _ _ _ _ _ _ => Ensures.failure
  | succ fuel ih =>
    intro count los somIt resultLOS hlos hresult
    refine (ensures_starRound hrRest hlos).bind fun v hv => ?_
    refine Ensures.ite (fun _ => ?_) fun _ => Ensures.pure hresult
    refine Ensures.bind_right fun r => ?_
    have hresult' : InnerRetrievable
        (if r.1 then ListOfStraws.appendACopy resultLOS v.1 else resultLOS) := by
      split
      · exact hresult.appendACopy hv
      · exact hresult
    refine Ensures.ite (fun _ => Ensures.pure hresult') fun _ => ?_
    exact ih (count + 1) v.1 r.2 _ hv hresult'

theorem ensures_rStar (starSOM : SetOfMonads)
    (hrRest : ∀ Sm, Ensures (rRest Sm) InnerRetrievable) :
    Ensures (rStar starSOM Sm rRest) InnerRetrievable := by
  have hempty : InnerRetrievable [Straw.new.append (MatchedObject.ofEmpty (Sm - 1))] :=
    InnerRetrievable.singleton (MatchedObject.innerRetrievable_ofEmpty (Sm - 1))
  refine (hrRest Sm).bind fun los hlos => Ensures.ite (fun _ => ?_) fun _ => ?_
  · exact Ensures.ite (fun _ => Ensures.pure hempty) fun _ => Ensures.pure InnerRetrievable.nil
  · refine Ensures.bind_right fun r => Ensures.bind_right fun r' => ?_
    have hzero : InnerRetrievable
        (if r.1 then [Straw.new.append (MatchedObject.ofEmpty (Sm - 1))] else []) := by
      split
      · exact hempty
      · exact InnerRetrievable.nil
    have hone : ∀ los', InnerRetrievable los' →
        InnerRetrievable (if r'.1 then ListOfStraws.appendACopy los' los else los') := by
      intro los' hlos'
      split
      · exact hlos'.appendACopy hlos
      · exact hlos'
    refine Ensures.ite (fun _ => ?_) fun _ => Ensures.pure (hone _ hzero)
    exact ensures_starLoop starSOM hrRest _ 2 los r'.2 _ hlos (hone _ hzero)

theorem ensures_objectBlockLOS {P : Option Sheaf → Prop} {obb : ObjectBlockBase}
    (bContinueExecution : Bool) (getSMI : Eval σ (List Int))
    (hrObjectBlock : ∀ Sm, Ensures (rRest Sm) (ObjectStraws P obb)) :
    Ensures (objectBlockLOS bContinueExecution getSMI rRest) (ObjectStraws P obb) := by
  refine Ensures.bind_right fun smi => ?_
  refine Ensures.ite (fun _ => ?_) fun _ => Ensures.pure ObjectStraws.nil
  refine Ensures.foldlM _ ObjectStraws.nil fun los Sm _ hlos => ?_
  exact (hrObjectBlock Sm).bind fun localLOS hlocalLOS => Ensures.pure (hlos.append hlocalLOS)

end Pieces

end Emdros
