/-
# Rendered tags are well nested

The calls of `objects2Document` are a sweep over the monads at which a range begins or ends
(`process_eq`): each pair of an object and one of its ranges is started at its first monad and
ended at its last, and the two orders at a monad are `OB` and `CB`.  So the tags are well
bracketed exactly when no two pairs cross (`Brackets.wellBracketed_sweep_iff`).

The two orders mirror each other except for ties: objects of one type with one range are
started in the order in which they were loaded, and ended in the same order
(`tags_nested_iff`).  With document index features there is a second exception, the
subtraction `MAX_MONAD - index`, whose result is narrowed to an `int`.
-/
import Emdros.Harvest.RenderObjects
import Emdros.Monads.FastStore

namespace Emdros

open Brackets (Tag WellBracketed sweep Sweeping Crossing opened closed)
open SpanList (cover mem_cover Sep)

namespace RenderObjects

/-! ## 1. What is loaded -/

section Loading

variable {sheet : Stylesheet}

/-- The pairs of the objects from `address` on. -/
def loadedFrom (sheet : Stylesheet) : Nat → List (Nat × FetchedObject) → List MSEPObjectPair
  | _, [] => []
  | address, so :: rest =>
    pairsOf (memObject sheet address so.1 so.2) so.2 ++ loadedFrom sheet (address + 1) rest

/-- All pairs of an object and one of its maximal ranges, in the order of loading. -/
def loaded (sheet : Stylesheet) (fetched : Nat → List FetchedObject) : List MSEPObjectPair :=
  loadedFrom sheet 0 (objectsToLoad sheet fetched)

/-- `p` was loaded before `q`. -/
def loadedBefore (p q : MSEPObjectPair) : Prop :=
  p.pObj.address < q.pObj.address ∨ p.pObj.address = q.pObj.address ∧ p.mseFirst < q.mseFirst

/-- The shortcut for a single range changes nothing. -/
theorem pairsOf_eq (pObj : MemObject) (o : FetchedObject) :
    pairsOf pObj o = o.monads.monadMs.map fun mse => ⟨mse.firstM, mse.lastM, pObj⟩ := by
  rw [pairsOf]
  split
  · rename_i h
    obtain ⟨e, he⟩ := List.length_eq_one_iff.mp (of_decide_eq_true h)
    have h₁ := o.rep.first_eq e (by rw [he]; rfl)
    have h₂ := o.rep.last_eq e (by rw [he]; rfl)
    rw [he, List.map_singleton, SetOfMonads.first, SetOfMonads.last, h₁, h₂]
  · rfl

theorem mem_pairsOf {pObj : MemObject} {o : FetchedObject} {p : MSEPObjectPair}
    (h : p ∈ pairsOf pObj o) :
    p.pObj = pObj ∧ 0 ≤ p.mseFirst ∧ p.mseFirst ≤ p.mseLast ∧ p.mseLast ≤ maxMonad := by
  rw [pairsOf_eq] at h
  obtain ⟨e, he, rfl⟩ := List.mem_map.mp h
  obtain ⟨h₁, h₂⟩ := o.rep.inRange e he
  exact ⟨rfl, h₁, e.first_le_last, h₂⟩

theorem pairsOf_pairwise (pObj : MemObject) (o : FetchedObject) :
    (pairsOf pObj o).Pairwise loadedBefore := by
  rw [pairsOf_eq, List.pairwise_map]
  refine o.rep.sep.imp fun {a b} hab => Or.inr ⟨rfl, ?_⟩
  have := a.first_le_last
  simp only [MonadSetElement.spanned_lo, MonadSetElement.spanned_hi] at hab
  show a.firstM < b.firstM
  omega

/-- What holds of every loaded pair. -/
structure WellLoaded (sheet : Stylesheet) (p : MSEPObjectPair) : Prop where
  nonneg : 0 ≤ p.mseFirst
  first_le_last : p.mseFirst ≤ p.mseLast
  le_max : p.mseLast ≤ maxMonad
  int32 : IsInt32 p.pObj.specialLong

theorem memObject_int32 (address surrogate : Nat) (o : FetchedObject) :
    IsInt32 (memObject sheet address surrogate o).specialLong := by
  simp only [memObject]
  split
  · exact o.int32
  · decide

theorem loadedFrom_spec : ∀ (objs : List (Nat × FetchedObject)) (address : Nat),
    (∀ p ∈ loadedFrom sheet address objs, address ≤ p.pObj.address ∧ WellLoaded sheet p) ∧
      (loadedFrom sheet address objs).Pairwise loadedBefore
  | [], _ => ⟨List.forall_mem_nil _, List.Pairwise.nil⟩
  | so :: rest, address => by
    obtain ⟨ih₁, ih₂⟩ := loadedFrom_spec rest (address + 1)
    constructor
    · intro p hp
      rcases List.mem_append.mp hp with hp | hp
      · obtain ⟨hobj, h₁, h₂, h₃⟩ := mem_pairsOf hp
        refine ⟨?_, h₁, h₂, h₃, ?_⟩
        · rw [hobj]
          exact le_refl _
        · rw [hobj]
          exact memObject_int32 _ _ _
      · obtain ⟨h₁, h₂⟩ := ih₁ p hp
        exact ⟨by omega, h₂⟩
    · refine List.pairwise_append.mpr ⟨pairsOf_pairwise _ _, ih₂, ?_⟩
      intro p hp q hq
      left
      rw [(mem_pairsOf hp).1]
      have := (ih₁ q hq).1
      exact this

/-- The two maps hold the pairs `l`. -/
def Entered (sheet : Stylesheet) (r : RenderObjects) (l : List MSEPObjectPair) : Prop :=
  r.fms = OrdMap.group MSEPObjectPair.mseFirst (l.filter fun p => sheet.hasStart p.surrogate) ∧
    r.lms = OrdMap.group MSEPObjectPair.mseLast (l.filter fun p => sheet.hasEnd p.surrogate)

theorem Entered.add {r : RenderObjects} {l : List MSEPObjectPair} (h : Entered sheet r l)
    (p : MSEPObjectPair) : Entered sheet (addToFMSandLMS sheet p r) (l ++ [p]) := by
  obtain ⟨h₁, h₂⟩ := h
  constructor
  · rw [addToFMSandLMS, List.filter_append]
    by_cases hs : sheet.hasStart p.surrogate = true
    · simp [hs, push, h₁, OrdMap.group_append_singleton]
    · simp [hs, h₁]
  · rw [addToFMSandLMS, List.filter_append]
    by_cases hs : sheet.hasEnd p.surrogate = true
    · simp [hs, push, h₂, OrdMap.group_append_singleton]
    · simp [hs, h₂]

theorem Entered.addAll : ∀ (ps : List MSEPObjectPair) {r : RenderObjects}
    {l : List MSEPObjectPair}, Entered sheet r l →
      Entered sheet (ps.foldl (fun r p => addToFMSandLMS sheet p r) r) (l ++ ps) ∧
        (ps.foldl (fun r p => addToFMSandLMS sheet p r) r).arena = r.arena
  | [], r, l, h => by simpa using h
  | p :: ps, r, l, h => by
    obtain ⟨h₁, h₂⟩ := Entered.addAll ps (h.add p)
    rw [List.append_assoc, List.singleton_append] at h₁
    exact ⟨h₁, h₂⟩

theorem Entered.loadAll : ∀ (objs : List (Nat × FetchedObject)) {r : RenderObjects}
    {l : List MSEPObjectPair}, Entered sheet r l →
      Entered sheet (objs.foldl (loadObject sheet) r) (l ++ loadedFrom sheet r.arena objs)
  | [], r, l, h => by simpa [loadedFrom] using h
  | so :: rest, r, l, h => by
    have hr : Entered sheet { r with arena := r.arena + 1 } l := h
    obtain ⟨h₁, h₂⟩ := Entered.addAll
      (pairsOf (memObject sheet r.arena so.1 so.2) so.2) hr
    have ih := Entered.loadAll rest h₁
    rw [h₂, List.append_assoc] at ih
    exact ih

/-- **Loading** enters every pair under its first and its last monad. -/
theorem entered_readObjects (fetched : Nat → List FetchedObject) :
    Entered sheet (readObjects sheet fetched) (loaded sheet fetched) := by
  have h := @Entered.loadAll sheet (objectsToLoad sheet fetched) new [] ⟨rfl, rfl⟩
  rw [List.nil_append] at h
  exact h

end Loading

/-! ## 2. The orders at a monad -/

section Orders

variable {sheet : Stylesheet} {index monad priority : MSEPObjectPair → Int}
  {l : List MSEPObjectPair}

/-- The order of `elementOrder`. -/
def ordered (sheet : Stylesheet) (index monad priority : MSEPObjectPair → Int)
    (x y : MSEPObjectPair) : Prop :=
  if sheet.useDocumentIndex then index x < index y ∨ index x = index y ∧ loadedBefore x y
  else monad y < monad x ∨ monad x = monad y ∧
    (priority x < priority y ∨ priority x = priority y ∧ loadedBefore x y)

theorem mem_walkPriorities (g : List MSEPObjectPair) (x : MSEPObjectPair) :
    x ∈ walkPriorities (g.foldl (fun m p => m.assign (priority p) [] fun l => l ++ [p])
      OrdMap.empty) ↔ x ∈ g :=
  @OrdMap.mem_groups _ _ _ priority g x

theorem mem_elementOrder {x : MSEPObjectPair} :
    x ∈ elementOrder sheet index monad priority l ↔ x ∈ l := by
  match l with
  | [] => exact Iff.rfl
  | [p] => exact Iff.rfl
  | p :: q :: rest =>
    rw [elementOrder]
    split
    · exact @OrdMap.mem_groups _ _ _ index _ x
    · exact OrdMap.mem_walkDown mem_walkPriorities

theorem pairwise_elementOrder (h : l.Pairwise loadedBefore) :
    (elementOrder sheet index monad priority l).Pairwise
      (ordered sheet index monad priority) := by
  match l, h with
  | [], _ => exact List.Pairwise.nil
  | [p], _ => exact List.pairwise_singleton _ _
  | p :: q :: rest, h =>
    rw [elementOrder]
    by_cases hdoc : sheet.useDocumentIndex = true
    · rw [if_pos hdoc]
      refine (@OrdMap.pairwise_groups _ _ _ index _ _ h).imp fun {x y} hxy => ?_
      rw [ordered, if_pos hdoc]
      exact hxy
    · rw [if_neg hdoc]
      refine (@OrdMap.pairwise_walkDown _ _ _ _ monad _ _ _ _
        (fun x y => priority x < priority y ∨ priority x = priority y ∧ loadedBefore x y)
        mem_walkPriorities fun k => ?_).imp fun {x y} hxy => ?_
      · exact @OrdMap.pairwise_groups _ _ _ priority _ _ (h.filter _)
      · rw [ordered, if_neg hdoc]
        exact hxy

theorem loadedBefore_asymm {x y : MSEPObjectPair} (h : loadedBefore x y) :
    ¬ loadedBefore y x := by
  simp only [loadedBefore] at h ⊢
  omega

theorem ordered_asymm {x y : MSEPObjectPair} (h : ordered sheet index monad priority x y) :
    ¬ ordered sheet index monad priority y x := by
  simp only [ordered] at h ⊢
  have hasymm := @loadedBefore_asymm x y
  split at h
  · simp only [*, if_true]
    intro h'
    rcases h with h | ⟨h₁, h₂⟩ <;> rcases h' with h' | ⟨h₁', h₂'⟩
    · omega
    · omega
    · omega
    · exact hasymm h₂ h₂'
  · rename_i hdoc
    rw [if_neg hdoc]
    intro h'
    rcases h with h | ⟨h₁, h | ⟨h₂, h₃⟩⟩ <;> rcases h' with h' | ⟨h₁', h' | ⟨h₂', h₃'⟩⟩ <;>
      first | omega | exact hasymm h₃ h₃'

theorem ordered_total {x y : MSEPObjectPair} (h : loadedBefore x y ∨ loadedBefore y x) :
    ordered sheet index monad priority x y ∨ ordered sheet index monad priority y x := by
  simp only [ordered]
  split
  · rcases lt_trichotomy (index x) (index y) with hlt | heq | hgt
    · exact Or.inl (Or.inl hlt)
    · rcases h with h | h
      · exact Or.inl (Or.inr ⟨heq, h⟩)
      · exact Or.inr (Or.inr ⟨heq.symm, h⟩)
    · exact Or.inr (Or.inl hgt)
  · rcases lt_trichotomy (monad x) (monad y) with hlt | heq | hgt
    · exact Or.inr (Or.inl hlt)
    · rcases lt_trichotomy (priority x) (priority y) with hlt' | heq' | hgt'
      · exact Or.inl (Or.inr ⟨heq, Or.inl hlt'⟩)
      · rcases h with h | h
        · exact Or.inl (Or.inr ⟨heq, Or.inr ⟨heq', h⟩⟩)
        · exact Or.inr (Or.inr ⟨heq.symm, Or.inr ⟨heq'.symm, h⟩⟩)
      · exact Or.inr (Or.inr ⟨heq.symm, Or.inl hgt'⟩)
    · exact Or.inl (Or.inl hgt)

/-- The order in which the pairs are started. -/
def OB (sheet : Stylesheet) (x y : MSEPObjectPair) : Prop :=
  x.mseFirst < y.mseFirst ∨ x.mseFirst = y.mseFirst ∧
    ordered sheet startIndex MSEPObjectPair.mseLast (startPriority sheet) x y

/-- The order in which the pairs are ended. -/
def CB (sheet : Stylesheet) (x y : MSEPObjectPair) : Prop :=
  x.mseLast < y.mseLast ∨ x.mseLast = y.mseLast ∧
    ordered sheet endIndex MSEPObjectPair.mseFirst (endPriority sheet) x y

theorem OB_asymm {x y : MSEPObjectPair} (h : OB sheet x y) : ¬ OB sheet y x := by
  rintro (h' | ⟨h', hord'⟩) <;> rcases h with h | ⟨h, hord⟩
  · omega
  · omega
  · omega
  · exact ordered_asymm hord hord'

theorem CB_asymm {x y : MSEPObjectPair} (h : CB sheet x y) : ¬ CB sheet y x := by
  rintro (h' | ⟨h', hord'⟩) <;> rcases h with h | ⟨h, hord⟩
  · omega
  · omega
  · omega
  · exact ordered_asymm hord hord'

theorem CB_total {x y : MSEPObjectPair} (h : loadedBefore x y ∨ loadedBefore y x) :
    CB sheet x y ∨ CB sheet y x := by
  rcases lt_trichotomy x.mseLast y.mseLast with hlt | heq | hgt
  · exact Or.inl (Or.inl hlt)
  · rcases ordered_total h with hord | hord
    · exact Or.inl (Or.inr ⟨heq, hord⟩)
    · exact Or.inr (Or.inr ⟨heq.symm, hord⟩)
  · exact Or.inr (Or.inl hgt)

end Orders

/-! ## 3. The monads that are visited -/

section Monads

theorem mem_monadsOf {mse : MonadSetElement} {m : Int} :
    m ∈ monadsOf mse ↔ mse.firstM ≤ m ∧ m ≤ mse.lastM := by
  have := mse.first_le_last
  rw [monadsOf, List.mem_map]
  constructor
  · rintro ⟨i, hi, rfl⟩
    rw [List.mem_range] at hi
    omega
  · rintro ⟨h₁, h₂⟩
    exact ⟨(m - mse.firstM).toNat, by rw [List.mem_range]; omega, by omega⟩

theorem monadsOf_pairwise (mse : MonadSetElement) : (monadsOf mse).Pairwise (· < ·) := by
  rw [monadsOf, List.pairwise_map]
  exact List.pairwise_lt_range.imp fun {a b} hab => by omega

/-- Adding monads one by one. -/
theorem foldlM_addMonad : ∀ (l : List Int) {s : SetOfMonads}, s.RepInv →
    (∀ m ∈ l, 0 ≤ m ∧ m ≤ maxMonad) →
      ∃ s', l.foldlM (fun som monad => FastSetOfMonads.addMonad som monad)
          (FastSetOfMonads.ofSetOfMonads s) = some (FastSetOfMonads.ofSetOfMonads s') ∧
        s'.RepInv ∧ ∀ m, m ∈ s'.mem ↔ m ∈ s.mem ∨ m ∈ l
  | [], s, h, _ => ⟨s, rfl, h, by simp⟩
  | k :: l, s, h, hin => by
    obtain ⟨hk₁, hk₂⟩ := hin k List.mem_cons_self
    have hrange : SetOfMonads.InRange ⟨k, k, le_refl k⟩ := ⟨hk₁, hk₂⟩
    obtain ⟨hrep, hmem⟩ := SetOfMonads.addMSE_spec h hrange
    obtain ⟨s', hs', hrep', hmem'⟩ := foldlM_addMonad l hrep
      fun m hm => hin m (List.mem_cons_of_mem _ hm)
    refine ⟨s', ?_, hrep', fun m => ?_⟩
    · rw [List.foldlM_cons, FastSetOfMonads.addMonad,
        FastSetOfMonads.add_ofSetOfMonads h hk₁ (le_refl k) hk₂]
      exact hs'
    · rw [hmem', hmem, List.mem_cons]
      simp only [Set.mem_union, SpanList.mem_points, MonadSetElement.spanned_lo,
        MonadSetElement.spanned_hi]
      constructor
      · rintro ((h | h) | h)
        · exact Or.inl h
        · exact Or.inr (Or.inl (by omega))
        · exact Or.inr (Or.inr h)
      · rintro (h | h | h)
        · exact Or.inl (Or.inl h)
        · exact Or.inl (Or.inr (by omega))
        · exact Or.inr h

/-- The walk over a set goes over its monads in ascending order. -/
theorem visited_spec {s : SetOfMonads} (h : s.RepInv) :
    (s.monadMs.flatMap monadsOf).Pairwise (· < ·) ∧
      ∀ m, m ∈ s.monadMs.flatMap monadsOf ↔ m ∈ s.mem := by
  constructor
  · refine List.pairwise_flatMap.mpr ⟨fun mse _ => monadsOf_pairwise mse, ?_⟩
    refine h.sep.imp fun {a b} hab x hx y hy => ?_
    simp only [MonadSetElement.spanned_lo, MonadSetElement.spanned_hi] at hab
    have h₁ := mem_monadsOf.mp hx
    have h₂ := mem_monadsOf.mp hy
    omega
  · intro m
    simp only [List.mem_flatMap, mem_monadsOf]
    exact Iff.rfl

end Monads

/-! ## 4. The document is a sweep -/

section Document

variable {sheet : Stylesheet} {fetched : Nat → List FetchedObject}

/-- What is started at a monad. -/
def startsAt (sheet : Stylesheet) (fetched : Nat → List FetchedObject) (m : Int) :
    List MSEPObjectPair :=
  startOrder sheet ((loaded sheet fetched).filter fun p => decide (p.mseFirst = m))

/-- What is ended at a monad. -/
def endsAt (sheet : Stylesheet) (fetched : Nat → List FetchedObject) (m : Int) :
    List MSEPObjectPair :=
  endOrder sheet ((loaded sheet fetched).filter fun p => decide (p.mseLast = m))

/-- Every loaded object has a start and an end template. -/
def Templated (sheet : Stylesheet) (l : List MSEPObjectPair) : Prop :=
  ∀ p ∈ l, sheet.hasStart p.surrogate = true ∧ sheet.hasEnd p.surrogate = true

theorem flatMap_opens {l : List MSEPObjectPair}
    (h : ∀ p ∈ l, sheet.hasStart p.surrogate = true) :
    l.flatMap (startElement sheet) = l.map Tag.opens := by
  induction l with
  | nil => rfl
  | cons p l ih =>
    rw [List.flatMap_cons, ih fun q hq => h q (List.mem_cons_of_mem _ hq), startElement,
      if_pos (h p List.mem_cons_self)]
    rfl

theorem flatMap_closes {l : List MSEPObjectPair}
    (h : ∀ p ∈ l, sheet.hasEnd p.surrogate = true) :
    l.flatMap (endElement sheet) = l.map Tag.closes := by
  induction l with
  | nil => rfl
  | cons p l ih =>
    rw [List.flatMap_cons, ih fun q hq => h q (List.mem_cons_of_mem _ hq), endElement,
      if_pos (h p List.mem_cons_self)]
    rfl

/-- What is done at a monad, when every object has its templates. -/
theorem atMonad_eq (htempl : Templated sheet (loaded sheet fetched)) (m : Int) :
    atMonad sheet (readObjects sheet fetched) m
      = (startsAt sheet fetched m).map Tag.opens ++ (endsAt sheet fetched m).map Tag.closes := by
  obtain ⟨hfms, hlms⟩ := @entered_readObjects sheet fetched
  have hstart : (loaded sheet fetched).filter (fun p => sheet.hasStart p.surrogate)
      = loaded sheet fetched := List.filter_eq_self.mpr fun p hp => (htempl p hp).1
  have hend : (loaded sheet fetched).filter (fun p => sheet.hasEnd p.surrogate)
      = loaded sheet fetched := List.filter_eq_self.mpr fun p hp => (htempl p hp).2
  rw [atMonad, hfms, hlms, hstart, hend, OrdMap.value_group_getD, OrdMap.value_group_getD,
    startElements, endElements, flatMap_opens, flatMap_closes]
  · rfl
  · intro p hp
    exact (htempl p (List.mem_of_mem_filter (mem_elementOrder.mp hp))).2
  · intro p hp
    exact (htempl p (List.mem_of_mem_filter (mem_elementOrder.mp hp))).1

theorem mem_keys_group {key : MSEPObjectPair → Int} {l : List MSEPObjectPair} {m : Int} :
    m ∈ (OrdMap.group key l).entries.map (·.1) ↔ ∃ p ∈ l, key p = m := by
  rw [List.mem_map]
  constructor
  · rintro ⟨⟨k, v⟩, he, rfl⟩
    exact (OrdMap.mem_group.mp he).1
  · rintro ⟨p, hp, rfl⟩
    exact ⟨(key p, _), OrdMap.mem_group.mpr ⟨⟨p, hp, rfl⟩, rfl⟩, rfl⟩

theorem wellLoaded {p : MSEPObjectPair} (hp : p ∈ loaded sheet fetched) : WellLoaded sheet p :=
  ((loadedFrom_spec _ _).1 p hp).2

theorem loaded_pairwise : (loaded sheet fetched).Pairwise loadedBefore :=
  (loadedFrom_spec _ _).2

theorem loaded_nodup : (loaded sheet fetched).Nodup :=
  Brackets.nodup_of_pairwise (fun _ _ _ _ h => loadedBefore_asymm h) loaded_pairwise

/-- **The document.**  Nothing throws, and the calls are a sweep over ascending monads that
contain the ends of every range. -/
theorem process_eq (htempl : Templated sheet (loaded sheet fetched)) :
    ∃ ms : List Int, process sheet fetched
        = some (sweep (startsAt sheet fetched) (endsAt sheet fetched) ms) ∧
      ms.Pairwise (· < ·) ∧
      ∀ p ∈ loaded sheet fetched, p.mseFirst ∈ ms ∧ p.mseLast ∈ ms := by
  obtain ⟨hfms, hlms⟩ := @entered_readObjects sheet fetched
  have hkeys : ∀ m, m ∈ (readObjects sheet fetched).fms.entries.map (·.1)
      ++ (readObjects sheet fetched).lms.entries.map (·.1) ↔
        (∃ p ∈ loaded sheet fetched, p.mseFirst = m) ∨
          ∃ p ∈ loaded sheet fetched, p.mseLast = m := by
    intro m
    have hstart : (loaded sheet fetched).filter (fun p => sheet.hasStart p.surrogate)
        = loaded sheet fetched := List.filter_eq_self.mpr fun p hp => (htempl p hp).1
    have hend : (loaded sheet fetched).filter (fun p => sheet.hasEnd p.surrogate)
        = loaded sheet fetched := List.filter_eq_self.mpr fun p hp => (htempl p hp).2
    rw [hfms, hlms, hstart, hend, List.mem_append, mem_keys_group, mem_keys_group]
  obtain ⟨s, hs, hrep, hmem⟩ := foldlM_addMonad
    ((readObjects sheet fetched).fms.entries.map (·.1)
      ++ (readObjects sheet fetched).lms.entries.map (·.1)) SetOfMonads.repInv_empty (by
    intro m hm
    rcases (hkeys m).mp hm with ⟨p, hp, rfl⟩ | ⟨p, hp, rfl⟩
    · obtain ⟨h₁, h₂, h₃, -⟩ := wellLoaded hp
      exact ⟨h₁, h₂.trans h₃⟩
    · obtain ⟨h₁, h₂, h₃, -⟩ := wellLoaded hp
      exact ⟨h₁.trans h₂, h₃⟩)
  obtain ⟨hasc, hvisit⟩ := visited_spec hrep
  refine ⟨s.monadMs.flatMap monadsOf, ?_, hasc, ?_⟩
  · rw [process, objects2Document, boundaryMonads, ← FastSetOfMonads.ofSetOfMonads_empty, hs,
      Option.map_some, FastSetOfMonads.elements_ofSetOfMonads hrep.sep, sweep]
    congr 2
    funext m
    exact atMonad_eq htempl m
  · intro p hp
    constructor
    · exact (hvisit _).mpr ((hmem _).mpr (Or.inr ((hkeys _).mpr (Or.inl ⟨p, hp, rfl⟩))))
    · exact (hvisit _).mpr ((hmem _).mpr (Or.inr ((hkeys _).mpr (Or.inr ⟨p, hp, rfl⟩))))

theorem sweeping : Sweeping (loaded sheet fetched) MSEPObjectPair.mseFirst
    MSEPObjectPair.mseLast (OB sheet) (CB sheet) (startsAt sheet fetched)
    (endsAt sheet fetched) where
  mem_S := by
    intro m x
    rw [startsAt, startOrder, mem_elementOrder, List.mem_filter, decide_eq_true_iff]
  mem_E := by
    intro m x
    rw [endsAt, endOrder, mem_elementOrder, List.mem_filter, decide_eq_true_iff]
  sorted_S := by
    intro m
    refine (pairwise_elementOrder (loaded_pairwise.filter _)).imp_of_mem ?_
    intro x y hx hy hxy
    rw [mem_elementOrder, List.mem_filter, decide_eq_true_iff] at hx hy
    exact Or.inr ⟨hx.2.trans hy.2.symm, hxy⟩
  sorted_E := by
    intro m
    refine (pairwise_elementOrder (loaded_pairwise.filter _)).imp_of_mem ?_
    intro x y hx hy hxy
    rw [mem_elementOrder, List.mem_filter, decide_eq_true_iff] at hx hy
    exact Or.inr ⟨hx.2.trans hy.2.symm, hxy⟩
  lo_le_hi := fun _ hx => (wellLoaded hx).first_le_last
  opens_of_lt := fun _ _ _ _ h => Or.inl h
  closes_of_lt := fun _ _ _ _ h => Or.inl h
  opens_asymm := fun _ _ _ _ h => OB_asymm h
  closes_asymm := fun _ _ _ _ h => CB_asymm h
  closes_total := fun _ hx _ hy hne =>
    CB_total (Brackets.pairwise_either loaded_pairwise hx hy hne)

end Document

/-! ## 5. Well nested tags -/

end RenderObjects

namespace MSEPObjectPair

/-- The range of `p` contains that of `q`. -/
def Contains (p q : MSEPObjectPair) : Prop := p.mseFirst ≤ q.mseFirst ∧ q.mseLast ≤ p.mseLast

instance (p q : MSEPObjectPair) : Decidable (p.Contains q) :=
  inferInstanceAs (Decidable (_ ∧ _))

/-- The range of `p` contains that of `q` and is not the same. -/
def StrictlyContains (p q : MSEPObjectPair) : Prop := p.Contains q ∧ ¬ q.Contains p

instance (p q : MSEPObjectPair) : Decidable (p.StrictlyContains q) :=
  inferInstanceAs (Decidable (_ ∧ _))

/-- Neither range has a monad in common with the other. -/
def Disjoint (p q : MSEPObjectPair) : Prop := p.mseLast < q.mseFirst ∨ q.mseLast < p.mseFirst

instance (p q : MSEPObjectPair) : Decidable (p.Disjoint q) :=
  inferInstanceAs (Decidable (_ ∨ _))

end MSEPObjectPair

namespace RenderObjects

/-- Any two ranges are disjoint or one contains the other. -/
def Laminar (l : List MSEPObjectPair) : Prop :=
  ∀ p ∈ l, ∀ q ∈ l, p.Disjoint q ∨ p.Contains q ∨ q.Contains p

/-- The calls are a correctly bracketed sequence for the pairs `l`. -/
structure WellNested (calls : List (Tag MSEPObjectPair)) (l : List MSEPObjectPair) : Prop where
  /-- Each pair is started exactly once. -/
  started : (opened calls).Perm l
  /-- Each pair is ended exactly once. -/
  ended : (closed calls).Perm l
  /-- It is ended after it is started. -/
  later : ∀ p ∈ l, [Tag.opens p, Tag.closes p].Sublist calls
  /-- Each end is that of the last start that is still open. -/
  bracketed : WellBracketed calls
  /-- A range opens before and closes after every range that it strictly contains. -/
  containing : ∀ p ∈ l, ∀ q ∈ l, p.StrictlyContains q →
    [p, q].Sublist (opened calls) ∧ [q, p].Sublist (closed calls)

/-- The priority list names all types of the loaded objects. -/
def Listed (sheet : Stylesheet) (l : List MSEPObjectPair) : Prop :=
  ∀ names, sheet.priorityList = some names → ∀ p ∈ l,
    ∃ t, sheet.objectTypes[p.surrogate]? = some t ∧ t.OTN ∈ names

/-- Without a priority list, the document index numbers put containing ranges first. -/
def Indexed (sheet : Stylesheet) (l : List MSEPObjectPair) : Prop :=
  sheet.priorityList = none → ∀ p ∈ l, ∀ q ∈ l, p.StrictlyContains q →
    p.pObj.specialLong < q.pObj.specialLong

/-- The ties are broken.  With a priority list: no two pairs have one type and one range.  With
document index numbers: of two ranges that end together, one inside the other, the numbers
differ, and the outer one's is not so small that `MAX_MONAD` minus it overflows an `int` where
that of the inner one does not. -/
def TiesBroken (sheet : Stylesheet) (l : List MSEPObjectPair) : Prop :=
  ∀ p ∈ l, ∀ q ∈ l, p ≠ q → p.Contains q → p.mseLast = q.mseLast →
    if sheet.useDocumentIndex then
      p.pObj.specialLong ≠ q.pObj.specialLong ∧
        ¬ (p.pObj.specialLong < -47483647 ∧ -47483647 ≤ q.pObj.specialLong)
    else ¬ (p.mseFirst = q.mseFirst ∧ p.surrogate = q.surrogate)

section Priorities

variable {sheet : Stylesheet}

/-- What `calculatePriorities` leaves for a type: its first position in the list, and the
distance of that from the end. -/
theorem calculatePrioritiesLoop_spec (length : Int) (s : Nat) :
    ∀ (names : List (List Char)) (startIndex : Int) (p : Priorities),
      ((calculatePrioritiesLoop sheet length names startIndex p).startPriority.value (some s)
          = (p.startPriority.value (some s)).or
            ((names.findIdx? fun n => decide (sheet.surrogate n = s)).map
              fun i : Nat => startIndex + (i : Int))) ∧
      ((calculatePrioritiesLoop sheet length names startIndex p).endPriority.value (some s)
          = (p.endPriority.value (some s)).or
            ((names.findIdx? fun n => decide (sheet.surrogate n = s)).map
              fun i : Nat => length - (startIndex + (i : Int))))
  | [], startIndex, p => by simp [calculatePrioritiesLoop]
  | n :: names, startIndex, p => by
    obtain ⟨ih₁, ih₂⟩ := calculatePrioritiesLoop_spec length s names (startIndex + 1)
      { startPriority := p.startPriority.insert (sheet.surrogate n) startIndex
        endPriority := p.endPriority.insert (sheet.surrogate n) (length - startIndex) }
    rw [calculatePrioritiesLoop, ih₁, ih₂, OrdMap.value_insert, OrdMap.value_insert,
      List.findIdx?_cons]
    by_cases hn : sheet.surrogate n = s
    · subst hn
      constructor
      · cases p.startPriority.value (some (sheet.surrogate n)) <;> simp
      · cases p.endPriority.value (some (sheet.surrogate n)) <;> simp
    · simp only [hn, if_false, decide_false, Bool.false_eq_true, Option.map_map]
      constructor
      · congr 2
        funext i
        simp only [Function.comp_apply]
        omega
      · congr 2
        funext i
        simp only [Function.comp_apply]
        omega

/-- The surrogate of the name of an object type is its number. -/
theorem surrogate_OTN {s : Nat} {t : ObjectTypeStyle} (h : sheet.objectTypes[s]? = some t) :
    sheet.surrogate t.OTN = s := by
  obtain ⟨hs, ht⟩ := List.getElem?_eq_some_iff.mp h
  have hfind : sheet.objectTypes.findIdx? (fun u => decide (u.OTN = t.OTN)) = some s := by
    refine List.findIdx?_eq_some_iff_getElem.mpr ⟨hs, by simp [ht], ?_⟩
    intro j hj heq
    rw [decide_eq_true_iff] at heq
    have hnodup := List.pairwise_iff_getElem.mp sheet.keys_nodup j s (by simp; omega)
      (by simpa using hs) hj
    rw [List.getElem_map, List.getElem_map, ht] at hnodup
    exact hnodup heq
  rw [Stylesheet.surrogate, hfind]
  rfl

/-- **The two priorities run against each other, and tell the types apart.** -/
theorem priorities_spec {names : List (List Char)} (hnames : sheet.priorityList = some names)
    {l : List MSEPObjectPair} (hlisted : Listed sheet l) :
    (∀ p ∈ l, endPriority sheet p = names.length - startPriority sheet p) ∧
      ∀ p ∈ l, ∀ q ∈ l, startPriority sheet p = startPriority sheet q →
        p.surrogate = q.surrogate := by
  have hfind : ∀ p ∈ l, ∃ i : Nat, (names.findIdx? fun n =>
      decide (sheet.surrogate n = p.surrogate)) = some i ∧
        startPriority sheet p = i ∧ endPriority sheet p = names.length - i := by
    intro p hp
    obtain ⟨t, ht, hin⟩ := hlisted names hnames p hp
    have hsome : (names.findIdx? fun n => decide (sheet.surrogate n = p.surrogate)).isSome := by
      rw [List.findIdx?_isSome, List.any_eq_true]
      exact ⟨t.OTN, hin, by simp [surrogate_OTN ht]⟩
    obtain ⟨i, hi⟩ := Option.isSome_iff_exists.mp hsome
    obtain ⟨h₁, h₂⟩ := @calculatePrioritiesLoop_spec sheet names.length p.surrogate
      names 0 ⟨OrdMap.empty, OrdMap.empty⟩
    rw [OrdMap.value_empty, Option.none_or, hi] at h₁ h₂
    refine ⟨i, hi, ?_, ?_⟩
    · simp only [startPriority, calculatePriorities, hnames, h₁]
      simp
    · simp only [endPriority, calculatePriorities, hnames, h₂]
      simp
  constructor
  · intro p hp
    obtain ⟨i, -, h₁, h₂⟩ := hfind p hp
    rw [h₁, h₂]
  · intro p hp q hq heq
    obtain ⟨i, hi, h₁, -⟩ := hfind p hp
    obtain ⟨j, hj, h₂, -⟩ := hfind q hq
    have hij : i = j := by omega
    subst hij
    obtain ⟨hlt, hpi, -⟩ := List.findIdx?_eq_some_iff_getElem.mp hi
    obtain ⟨_, hqi, -⟩ := List.findIdx?_eq_some_iff_getElem.mp hj
    exact (of_decide_eq_true hpi).symm.trans (of_decide_eq_true hqi)

/-- The narrowing leaves the value of an integer feature alone. -/
theorem startIndex_eq {p : MSEPObjectPair} (h : IsInt32 p.pObj.specialLong) :
    startIndex p = p.pObj.specialLong := by
  obtain ⟨h₁, h₂⟩ := h
  rw [startIndex, toInt, Int.bmod_def]
  omega

/-- The difference that keys the ends, narrowed to an `int`. -/
theorem endIndex_eq {p : MSEPObjectPair} (h : IsInt32 p.pObj.specialLong) :
    endIndex p = if p.pObj.specialLong < -47483647
      then maxMonad - p.pObj.specialLong - 4294967296 else maxMonad - p.pObj.specialLong := by
  obtain ⟨h₁, h₂⟩ := h
  rw [endIndex, toInt, Int.bmod_def, maxMonad]
  split <;> omega

end Priorities

section Nested

variable {sheet : Stylesheet} {fetched : Nat → List FetchedObject}

/-- Of two crossing pairs in a laminar family the second lies in the first, and they end
together. -/
theorem nested_of_crossing (hlam : Laminar (loaded sheet fetched)) {x y : MSEPObjectPair}
    (hx : x ∈ loaded sheet fetched) (hy : y ∈ loaded sheet fetched)
    (hindexed : Indexed sheet (loaded sheet fetched))
    (hcross : Crossing MSEPObjectPair.mseFirst MSEPObjectPair.mseLast (OB sheet) (CB sheet) x y) :
    x ≠ y ∧ x.Contains y ∧ x.mseLast = y.mseLast := by
  obtain ⟨hob, hmeet, hcb⟩ := hcross
  have hne : x ≠ y := by
    intro heq
    subst heq
    exact OB_asymm hob hob
  have hyfl := (wellLoaded hy).first_le_last
  have hfirst : x.mseFirst ≤ y.mseFirst := by
    rcases hob with h | ⟨h, -⟩ <;> omega
  have hlast : x.mseLast ≤ y.mseLast := by
    rcases hcb with h | ⟨h, -⟩ <;> omega
  refine ⟨hne, ?_⟩
  rcases hlam x hx y hy with h | h | h
  · simp only [MSEPObjectPair.Disjoint] at h
    omega
  · obtain ⟨h₁, h₂⟩ := h
    exact ⟨⟨h₁, h₂⟩, by omega⟩
  · -- the second contains the first: they begin together, so the longer one is started first
    obtain ⟨h₁, h₂⟩ := h
    by_cases heq : x.mseLast = y.mseLast
    · exact ⟨⟨hfirst, by omega⟩, heq⟩
    · exfalso
      rcases hob with h | ⟨hf, hord⟩
      · omega
      · simp only [ordered] at hord
        split at hord
        · rename_i hdoc
          have hlist : sheet.priorityList = none := by simpa [Stylesheet.useDocumentIndex] using hdoc
          have hlt := hindexed hlist y hy x hx ⟨⟨h₁, h₂⟩, fun hc => heq (by have := hc.2; omega)⟩
          rw [startIndex_eq (wellLoaded hx).int32, startIndex_eq (wellLoaded hy).int32] at hord
          rcases hord with h | ⟨h, -⟩ <;> omega
        · rcases hord with h | ⟨h, -⟩ <;> omega

/-- **Nothing crosses exactly when the ties are broken.** -/
theorem no_crossing_iff (hlam : Laminar (loaded sheet fetched))
    (hlisted : Listed sheet (loaded sheet fetched))
    (hindexed : Indexed sheet (loaded sheet fetched)) :
    (∀ x ∈ loaded sheet fetched, ∀ y ∈ loaded sheet fetched,
      ¬ Crossing MSEPObjectPair.mseFirst MSEPObjectPair.mseLast (OB sheet) (CB sheet) x y) ↔
        TiesBroken sheet (loaded sheet fetched) := by
  constructor
  · intro hno p hp q hq hne hcont hlast
    obtain ⟨hc₁, hc₂⟩ := hcont
    have hmeet : q.mseFirst ≤ p.mseLast := by
      have := (wellLoaded hq).first_le_last
      omega
    have hmeet' : p.mseFirst ≤ q.mseLast := by
      have := (wellLoaded hp).first_le_last
      omega
    have horder := Brackets.pairwise_either loaded_pairwise hp hq hne
    by_cases hdoc : sheet.useDocumentIndex = true
    · rw [if_pos hdoc]
      have hlist : sheet.priorityList = none := by simpa [Stylesheet.useDocumentIndex] using hdoc
      have hsp := startIndex_eq (wellLoaded hp).int32
      have hsq := startIndex_eq (wellLoaded hq).int32
      have hep := endIndex_eq (wellLoaded hp).int32
      have heq := endIndex_eq (wellLoaded hq).int32
      constructor
      · intro hsame
        have hfirst : p.mseFirst = q.mseFirst := by
          by_contra hf
          have hstrict : p.StrictlyContains q :=
            ⟨⟨hc₁, hc₂⟩, fun hc => hf (by have := hc.1; omega)⟩
          have := hindexed hlist p hp q hq hstrict
          omega
        rw [hsame] at hsp hep
        rcases horder with hbef | hbef
        · refine hno p hp q hq ⟨Or.inr ⟨hfirst, ?_⟩, hmeet, Or.inr ⟨hlast, ?_⟩⟩
          · rw [ordered, if_pos hdoc]
            exact Or.inr ⟨hsp.trans hsq.symm, hbef⟩
          · rw [ordered, if_pos hdoc]
            exact Or.inr ⟨hep.trans heq.symm, hbef⟩
        · refine hno q hq p hp ⟨Or.inr ⟨hfirst.symm, ?_⟩, hmeet', Or.inr ⟨hlast.symm, ?_⟩⟩
          · rw [ordered, if_pos hdoc]
            exact Or.inr ⟨hsq.trans hsp.symm, hbef⟩
          · rw [ordered, if_pos hdoc]
            exact Or.inr ⟨heq.trans hep.symm, hbef⟩
      · rintro ⟨hs₁, hs₂⟩
        have hqmin := (wellLoaded hq).int32.2
        have hpmin := (wellLoaded hp).int32.1
        rw [if_pos hs₁] at hep
        rw [if_neg (by omega)] at heq
        refine hno p hp q hq ⟨?_, hmeet, Or.inr ⟨hlast, ?_⟩⟩
        · rcases hc₁.lt_or_eq with hlt | hfirst
          · exact Or.inl hlt
          · refine Or.inr ⟨hfirst, ?_⟩
            rw [ordered, if_pos hdoc]
            left
            omega
        · rw [ordered, if_pos hdoc]
          left
          omega
    · rw [if_neg hdoc]
      rintro ⟨hfirst, htype⟩
      have hsp : startPriority sheet p = startPriority sheet q := by
        rw [startPriority, startPriority, htype]
      have hep : endPriority sheet p = endPriority sheet q := by
        rw [endPriority, endPriority, htype]
      rcases horder with hbef | hbef
      · refine hno p hp q hq ⟨Or.inr ⟨hfirst, ?_⟩, hmeet, Or.inr ⟨hlast, ?_⟩⟩
        · rw [ordered, if_neg hdoc]
          exact Or.inr ⟨hlast, Or.inr ⟨hsp, hbef⟩⟩
        · rw [ordered, if_neg hdoc]
          exact Or.inr ⟨hfirst, Or.inr ⟨hep, hbef⟩⟩
      · refine hno q hq p hp ⟨Or.inr ⟨hfirst.symm, ?_⟩, hmeet', Or.inr ⟨hlast.symm, ?_⟩⟩
        · rw [ordered, if_neg hdoc]
          exact Or.inr ⟨hlast.symm, Or.inr ⟨hsp.symm, hbef⟩⟩
        · rw [ordered, if_neg hdoc]
          exact Or.inr ⟨hfirst.symm, Or.inr ⟨hep.symm, hbef⟩⟩
  · intro hties x hx y hy hcross
    obtain ⟨hne, hcont, hlast⟩ := nested_of_crossing hlam hx hy hindexed hcross
    obtain ⟨hob, -, hcb⟩ := hcross
    have htie := hties x hx y hy hne hcont hlast
    obtain ⟨hc₁, hc₂⟩ := hcont
    have hend := hcb.resolve_left (by omega)
    by_cases hdoc : sheet.useDocumentIndex = true
    · rw [if_pos hdoc] at htie
      have hlist : sheet.priorityList = none := by simpa [Stylesheet.useDocumentIndex] using hdoc
      have hend' := hend.2
      rw [ordered, if_pos hdoc, endIndex_eq (wellLoaded hx).int32,
        endIndex_eq (wellLoaded hy).int32] at hend'
      have hstart : x.pObj.specialLong ≤ y.pObj.specialLong := by
        rcases hc₁.lt_or_eq with hlt | hfirst
        · exact (hindexed hlist x hx y hy
            ⟨⟨hc₁, hc₂⟩, fun hc => by have := hc.1; omega⟩).le
        · have hord := (hob.resolve_left (by omega)).2
          rw [ordered, if_pos hdoc, startIndex_eq (wellLoaded hx).int32,
            startIndex_eq (wellLoaded hy).int32] at hord
          rcases hord with h | ⟨h, -⟩ <;> omega
      obtain ⟨htie₁, htie₂⟩ := htie
      have hymax := (wellLoaded hy).int32.2
      have hxmin := (wellLoaded hx).int32.1
      split at hend' <;> split at hend' <;> omega
    · rw [if_neg hdoc] at htie
      obtain ⟨names, hnames⟩ : ∃ names, sheet.priorityList = some names := by
        refine Option.ne_none_iff_exists'.mp fun hnone => hdoc ?_
        simp [Stylesheet.useDocumentIndex, hnone]
      obtain ⟨hsum, hinj⟩ := priorities_spec hnames hlisted
      have hend' := hend.2
      rw [ordered, if_neg hdoc, hsum x hx, hsum y hy] at hend'
      have hfirst : x.mseFirst = y.mseFirst := by
        rcases hend' with h | ⟨h, -⟩ <;> omega
      have hord := (hob.resolve_left (by omega)).2
      rw [ordered, if_neg hdoc] at hord
      refine htie ⟨hfirst, hinj x hx y hy ?_⟩
      rcases hord with h | ⟨-, h | ⟨h, -⟩⟩
      · omega
      · rcases hend' with h' | ⟨-, h' | ⟨h', -⟩⟩ <;> omega
      · exact h

/-- A range is started before what it strictly contains. -/
theorem OB_of_strictlyContains (hindexed : Indexed sheet (loaded sheet fetched))
    {p q : MSEPObjectPair} (hp : p ∈ loaded sheet fetched) (hq : q ∈ loaded sheet fetched)
    (h : p.StrictlyContains q) : OB sheet p q := by
  obtain ⟨⟨h₁, h₂⟩, hnot⟩ := h
  rcases h₁.lt_or_eq with hlt | heq
  · exact Or.inl hlt
  · have hlast : q.mseLast < p.mseLast := by
      rcases h₂.lt_or_eq with hlt | heq'
      · exact hlt
      · exact (hnot ⟨heq.ge, heq'.ge⟩).elim
    refine Or.inr ⟨heq, ?_⟩
    rw [ordered]
    split
    · rename_i hdoc
      have hlist : sheet.priorityList = none := by simpa [Stylesheet.useDocumentIndex] using hdoc
      left
      rw [startIndex_eq (wellLoaded hp).int32, startIndex_eq (wellLoaded hq).int32]
      exact hindexed hlist p hp q hq ⟨⟨h₁, h₂⟩, hnot⟩
    · exact Or.inl hlast

/-- **When rendered tags are well nested.**  For a laminar family of ranges whose object types
all have a start and an end template, and whose priority list names them all or whose document
index numbers put containing ranges first, the calls are correctly bracketed exactly when the
ties are broken. -/
theorem tags_nested_iff (sheet : Stylesheet) (fetched : Nat → List FetchedObject)
    (htempl : Templated sheet (loaded sheet fetched)) (hlam : Laminar (loaded sheet fetched))
    (hlisted : Listed sheet (loaded sheet fetched))
    (hindexed : Indexed sheet (loaded sheet fetched)) :
    (∃ calls, process sheet fetched = some calls ∧ WellNested calls (loaded sheet fetched)) ↔
      TiesBroken sheet (loaded sheet fetched) := by
  obtain ⟨ms, hprocess, hasc, hends⟩ := process_eq htempl
  have hsweep : Sweeping (loaded sheet fetched) MSEPObjectPair.mseFirst
    MSEPObjectPair.mseLast (OB sheet) (CB sheet) (startsAt sheet fetched)
    (endsAt sheet fetched) := sweeping
  have hlo := fun p hp => (hends p hp).1
  have hhi := fun p hp => (hends p hp).2
  rw [← no_crossing_iff hlam hlisted hindexed,
    ← Brackets.wellBracketed_sweep_iff hsweep hasc hlo hhi]
  constructor
  · rintro ⟨calls, hcalls, hnested⟩
    rw [hprocess, Option.some.injEq] at hcalls
    rw [hcalls]
    exact hnested.bracketed
  · intro hbracketed
    have hno := (Brackets.wellBracketed_sweep_iff hsweep hasc hlo hhi).mp hbracketed
    have hopened := hsweep.opened_perm hasc hlo loaded_nodup
    have hclosed := hsweep.closed_perm hasc hhi loaded_nodup
    refine ⟨_, hprocess, ?_, ?_, ?_, hbracketed, ?_⟩
    · rw [Brackets.opened_sweep]
      exact hopened
    · rw [Brackets.closed_sweep]
      exact hclosed
    · intro p hp
      refine Brackets.opens_before_closes hbracketed List.not_mem_nil ?_
      refine List.mem_flatMap.mpr ⟨p.mseLast, hhi p hp, List.mem_append_right _ ?_⟩
      exact List.mem_map_of_mem (hsweep.mem_E.mpr ⟨hp, rfl⟩)
    · intro p hp q hq hstrict
      have hob := OB_of_strictlyContains hindexed hp hq hstrict
      have hne : p ≠ q := by
        intro heq
        subst heq
        exact hstrict.2 hstrict.1
      have hnotCB : ¬ CB sheet p q := by
        intro hcb
        have := (wellLoaded hq).first_le_last
        have := hstrict.1.2
        exact hno p hp q hq ⟨hob, by omega, hcb⟩
      rw [Brackets.opened_sweep, Brackets.closed_sweep]
      exact ⟨Brackets.sublist_of_pairwise (hsweep.pairwise_opened hasc) (hopened.mem_iff.mpr hp)
          (hopened.mem_iff.mpr hq) hne (OB_asymm hob),
        Brackets.sublist_of_pairwise (hsweep.pairwise_closed hasc) (hclosed.mem_iff.mpr hq)
          (hclosed.mem_iff.mpr hp) hne.symm hnotCB⟩

end Nested

/-! ## 6. A sentence and its words -/

/-- A stylesheet for sentences and words. -/
def wordStyle : Stylesheet where
  objectTypes := [⟨['s'], ['<', 's', '>'], ['<', '/', 's', '>']⟩,
    ⟨['w'], ['<', 'w', '>'], ['<', '/', 'w', '>']⟩]
  priorityList := some [['s'], ['w']]
  keys_nodup := List.nodup_iff_pairwise_ne.mpr (List.Pairwise.cons
    (fun _ h => by rw [List.mem_singleton.mp h]; decide) (List.pairwise_singleton _ _))

theorem repInv_firstMonad :
    (⟨[MonadSetElement.single 1], 1, 1⟩ : SetOfMonads).RepInv := by decide

theorem isInt32_zero : IsInt32 0 := by decide

/-- An object at monad 1. -/
def atFirstMonad (idD : Int) : FetchedObject where
  idD := idD
  monads := ⟨[MonadSetElement.single 1], 1, 1⟩
  documentIndex := 0
  rep := repInv_firstMonad
  nonempty := List.cons_ne_nil _ _
  int32 := isInt32_zero

/-- A sentence and a word at monad 1. -/
def sentenceAndWord : Nat → List FetchedObject
  | 0 => [atFirstMonad 10]
  | 1 => [atFirstMonad 11]
  | _ => []

theorem loaded_sentenceAndWord : loaded wordStyle sentenceAndWord
    = [⟨1, 1, ⟨0, 0, 10, 0⟩⟩, ⟨1, 1, ⟨1, 1, 11, 0⟩⟩] := rfl

theorem listed_wordStyle (l : List MSEPObjectPair) (h : ∀ p ∈ l, p.surrogate < 2) :
    Listed wordStyle l := by
  intro names hnames p hp
  rw [show wordStyle.priorityList = some [['s'], ['w']] from rfl, Option.some.injEq] at hnames
  subst hnames
  have hlt := h p hp
  rcases Nat.lt_or_ge p.surrogate 1 with h0 | h1
  · rw [Nat.lt_one_iff.mp h0]
    exact ⟨_, rfl, List.mem_cons_self⟩
  · rw [show p.surrogate = 1 by omega]
    exact ⟨_, rfl, List.mem_cons_of_mem _ List.mem_cons_self⟩

theorem tags_nested_iff_word :
    ∃ calls, process wordStyle sentenceAndWord = some calls ∧
      WellNested calls (loaded wordStyle sentenceAndWord) := by
  refine (tags_nested_iff wordStyle sentenceAndWord ?_ ?_ ?_ ?_).mpr ?_
  · unfold Templated
    rw [loaded_sentenceAndWord]
    decide
  · unfold Laminar
    rw [loaded_sentenceAndWord]
    decide
  · refine listed_wordStyle _ ?_
    rw [loaded_sentenceAndWord]
    decide
  · intro hnone
    cases hnone
  · unfold TiesBroken
    rw [loaded_sentenceAndWord]
    decide

/-- Two words at monad 1. -/
def twoWords : Nat → List FetchedObject
  | 1 => [atFirstMonad 11, atFirstMonad 12]
  | _ => []

theorem loaded_twoWords : loaded wordStyle twoWords
    = [⟨1, 1, ⟨0, 1, 11, 0⟩⟩, ⟨1, 1, ⟨1, 1, 12, 0⟩⟩] := rfl

theorem process_twoWords : process wordStyle twoWords
    = some [.opens ⟨1, 1, ⟨0, 1, 11, 0⟩⟩, .opens ⟨1, 1, ⟨1, 1, 12, 0⟩⟩,
        .closes ⟨1, 1, ⟨0, 1, 11, 0⟩⟩, .closes ⟨1, 1, ⟨1, 1, 12, 0⟩⟩] := rfl

/-- The word that is started first is ended first. -/
theorem tags_cross :
    Templated wordStyle (loaded wordStyle twoWords) ∧ Laminar (loaded wordStyle twoWords) ∧
      Listed wordStyle (loaded wordStyle twoWords) ∧
      Indexed wordStyle (loaded wordStyle twoWords) ∧
      ¬ ∃ calls, process wordStyle twoWords = some calls ∧
        WellNested calls (loaded wordStyle twoWords) := by
  refine ⟨?_, ?_, ?_, ?_, ?_⟩
  · unfold Templated
    rw [loaded_twoWords]
    decide
  · unfold Laminar
    rw [loaded_twoWords]
    decide
  · refine listed_wordStyle _ ?_
    rw [loaded_twoWords]
    decide
  · intro hnone
    cases hnone
  · rintro ⟨calls, hcalls, hnested⟩
    rw [process_twoWords, Option.some.injEq] at hcalls
    have hbracketed := hnested.bracketed
    rw [← hcalls] at hbracketed
    revert hbracketed
    decide

end RenderObjects

end Emdros
