/-
# The objects of an inst within a universe (`Inst` in `inst.cpp`, `InstStartMonadIterator`)

An `Inst` is a skip list of objects and the bounds of the current universe.
`InstStartMonadIterator` goes through the first monads of its objects, from a start monad on; its
pointer into the skip list is advanced by `nextAtHigherKey`.

`instStartMonads_spec` says what such an iterator yields from a skip list that objects have been
inserted into.
-/
import Emdros.EMdF.SkipListSearch
import Emdros.Monads.SetOfMonads

namespace Emdros

open Linked SkipList

/-! ## 1. The iterator -/

/-- `class Inst`: its contents, and the bounds of its universe. -/
structure Inst where
  contents : SkipList
  mFirstMonad : Int
  mLastMonad : Int

namespace Inst

/-- `set_current_universe(universe)`. -/
def setCurrentUniverse (inst : Inst) (U : SetOfMonads) : Inst :=
  { inst with mFirstMonad := U.first, mLastMonad := U.last }

/-- `begin()`. -/
def begin (inst : Inst) : Option Nat := inst.contents.search inst.mFirstMonad

/-- `nextAtHigherKey(ci)`: past the objects that start where the current one does, and to the end
past the universe. -/
def nextAtHigherKey (inst : Inst) (ci : Nat) : Option Nat :=
  if inst.contents.hasNext ci then
    (inst.contents.advanceToNextKey ci).map fun r =>
      if r.1 > inst.mLastMonad then inst.contents.end_ else r.2
  else some ci

/-- The loop of the constructor of `InstStartMonadIterator`. -/
def seek (inst : Inst) (Sm : Int) : Nat → Nat → Option Nat
  | 0, _ => none
  | fuel + 1, ci =>
    if inst.contents.hasNext ci then
      (inst.contents.currentKey ci).bind fun current =>
        if current ≥ Sm then some ci
        else (inst.nextAtHigherKey ci).bind fun ci => seek inst Sm fuel ci
    else some ci

/-- What `next()` returns while `hasNext()`. -/
def drain (inst : Inst) : Nat → Nat → Option (List Int)
  | 0, _ => none
  | fuel + 1, ci =>
    if inst.contents.hasNext ci then
      (inst.contents.currentKey ci).bind fun first =>
        (inst.nextAtHigherKey ci).bind fun ci => (drain inst fuel ci).map fun rest => first :: rest
    else some []

end Inst

/-- What `InstStartMonadIterator(pInst, U, Su, Sm)` yields from an inst with these contents. -/
def instStartMonads (contents : SkipList) (U : SetOfMonads) (Sm : Int) : Option (List Int) :=
  let inst := (Inst.mk contents maxMonad 0).setCurrentUniverse U
  inst.begin.bind fun ci =>
    (inst.seek Sm contents.free ci).bind fun ci => inst.drain contents.free ci

/-! ## 2. Its moves

The pointer stands at a final part of level `0`. -/

section Moves

variable {s : SkipList} {L : Nat → List Nat} {val : Nat → InstObject}

/-- The final part at which `advanceToNextKey` stops. -/
theorem SkipList.Inv.advanceToNextKey (h : Inv s L val) {pre suf : List Nat} {x : Nat}
    (hl : L 0 = pre ++ x :: suf) :
    s.advanceToNextKey x = some
      (match suf.dropWhile fun p => decide ((val p).first ≤ (val x).first) with
        | [] => (0, nilPtr)
        | y :: _ => ((val y).first, y)) := by
  have hlen := h.length_lt 0
  rw [hl, List.length_append, List.length_cons] at hlen
  rw [SkipList.advanceToNextKey, if_pos (h.at_cons hl).2.2, h.currentKey hl, Option.bind_some]
  exact h.advanceLoop (val x).first suf pre x s.free hl (by omega)

/-- The objects behind the pointer do not start before the one at it. -/
theorem SkipList.Inv.first_le (h : Inv s L val) {suf : List Nat} {x : Nat}
    (hl : x :: suf <:+ L 0) : ∀ p ∈ suf, (val x).first ≤ (val p).first := by
  intro p hp
  have hsorted := List.Pairwise.sublist hl.sublist h.sorted
  have hxp := (List.pairwise_cons.mp hsorted).1 p hp
  unfold Ordered at hxp
  omega

theorem SkipList.Inv.length_lt_of_suffix (h : Inv s L val) {suf : List Nat} (hl : suf <:+ L 0) :
    suf.length < s.free := lt_of_le_of_lt hl.length_le (h.length_lt 0)

namespace Inst

variable {inst : Inst} {L : Nat → List Nat} {val : Nat → InstObject}

/-- `nextAtHigherKey` goes to the objects that start later, or to the end if none of them starts
in the universe. -/
theorem nextAtHigherKey_spec (h : SkipList.Inv inst.contents L val) {suf : List Nat} {x : Nat}
    (hl : x :: suf <:+ L 0) :
    ∃ suf', inst.nextAtHigherKey x = some (suf'.headD nilPtr) ∧ suf' <:+ L 0 ∧ suf' <:+ suf ∧
      (∀ p ∈ suf', (val x).first < (val p).first) ∧
      ∀ p ∈ suf, (val x).first < (val p).first → (val p).first ≤ inst.mLastMonad → p ∈ suf' := by
  obtain ⟨pre, hpre⟩ := hl
  have hhas := (h.at_cons hpre.symm).2.2
  have hsplit := List.takeWhile_append_dropWhile
    (p := fun p => decide ((val p).first ≤ (val x).first)) (l := suf)
  have hdropped : suf.dropWhile (fun p => decide ((val p).first ≤ (val x).first)) <:+ suf :=
    List.dropWhile_suffix _
  -- what is dropped does not start later
  have hlater : ∀ p ∈ suf, (val x).first < (val p).first →
      p ∈ suf.dropWhile fun p => decide ((val p).first ≤ (val x).first) := by
    intro p hp hlt
    rw [← hsplit] at hp
    refine (List.mem_append.mp hp).resolve_left fun htake => ?_
    have hle := of_decide_eq_true (List.all_eq_true.mp (List.all_takeWhile) p htake)
    exact absurd hlt (not_lt.mpr hle)
  have hsuf : suf <:+ L 0 := ⟨pre ++ [x], by rw [List.append_assoc]; exact hpre⟩
  rw [nextAtHigherKey, if_pos hhas, h.advanceToNextKey hpre.symm, Option.map_some]
  cases hd : suf.dropWhile fun p => decide ((val p).first ≤ (val x).first) with
  | nil =>
    refine ⟨[], ?_, List.nil_suffix, List.nil_suffix, by simp, ?_⟩
    · dsimp only
      split <;> rfl
    · intro p hp hlt
      rw [hd] at hlater
      exact absurd (hlater p hp hlt) (List.not_mem_nil)
  | cons y rest =>
    rw [hd] at hdropped hlater
    have hy : (val x).first < (val y).first := by
      have := List.head?_dropWhile_not (fun p => decide ((val p).first ≤ (val x).first)) suf
      rw [hd] at this
      simpa using this
    have hge : ∀ p ∈ y :: rest, (val y).first ≤ (val p).first := by
      intro p hp
      rcases List.mem_cons.mp hp with rfl | hp
      · exact le_refl _
      · exact h.first_le (hdropped.trans hsuf) p hp
    dsimp only
    by_cases hlast : (val y).first > inst.mLastMonad
    · refine ⟨[], by rw [if_pos hlast]; rfl, List.nil_suffix, List.nil_suffix, by simp, ?_⟩
      intro p hp hlt hle
      have := hge p (hlater p hp hlt)
      omega
    · refine ⟨y :: rest, by rw [if_neg hlast]; rfl, hdropped.trans hsuf, hdropped, ?_, ?_⟩
      · intro p hp
        exact lt_of_lt_of_le hy (hge p hp)
      · intro p hp hlt _
        exact hlater p hp hlt

/-- The constructor's loop goes to the objects from the start monad on. -/
theorem seek_spec (h : SkipList.Inv inst.contents L val) (Sm : Int) :
    ∀ (fuel : Nat) (suf : List Nat), suf <:+ L 0 → suf.length < fuel →
      ∃ suf', inst.seek Sm fuel (suf.headD nilPtr) = some (suf'.headD nilPtr) ∧
        suf' <:+ L 0 ∧ suf' <:+ suf ∧ (∀ p ∈ suf', Sm ≤ (val p).first) ∧
        ∀ p ∈ suf, Sm ≤ (val p).first → (val p).first ≤ inst.mLastMonad → p ∈ suf' := by
  intro fuel
  induction fuel with
  | zero =>
    intro suf _ hlen
    exact absurd hlen (Nat.not_lt_zero _)
  | succ fuel ih =>
    intro suf hl hlen
    cases suf with
    | nil => exact ⟨[], rfl, hl, List.suffix_refl _, by simp, by simp⟩
    | cons x rest =>
      obtain ⟨pre, hpre⟩ := id hl
      rw [List.headD_cons, seek, if_pos (h.at_cons hpre.symm).2.2, h.currentKey hpre.symm,
        Option.bind_some]
      have hle := h.first_le hl
      by_cases hge : (val x).first ≥ Sm
      · refine ⟨x :: rest, by rw [if_pos hge]; rfl, hl, List.suffix_refl _, ?_,
          fun p hp _ _ => hp⟩
        intro p hp
        rcases List.mem_cons.mp hp with rfl | hp
        · exact hge
        · exact le_trans hge (hle p hp)
      · obtain ⟨suf₁, hnext, hl₁, hsub₁, -, hmem₁⟩ := nextAtHigherKey_spec h hl
        have hlen₁ : suf₁.length < fuel := by
          have := hsub₁.length_le
          rw [List.length_cons] at hlen
          omega
        obtain ⟨suf', hseek, hl', hsub', hstart, hmem⟩ := ih suf₁ hl₁ hlen₁
        rw [if_neg hge, hnext, Option.bind_some]
        refine ⟨suf', hseek, hl', (hsub'.trans hsub₁).trans (List.suffix_cons x rest), hstart, ?_⟩
        intro p hp hSm hlast
        rcases List.mem_cons.mp hp with rfl | hp
        · exact absurd hSm hge
        · exact hmem p (hmem₁ p hp (lt_of_lt_of_le (not_le.mp hge) hSm) hlast) hSm hlast

/-- From an object on, the iterator yields first monads, each once, ascending, and none of those in
the universe is left out. -/
theorem drain_spec (h : SkipList.Inv inst.contents L val) :
    ∀ (fuel : Nat) (suf : List Nat), suf <:+ L 0 → suf.length < fuel →
      ∃ ks, inst.drain fuel (suf.headD nilPtr) = some ks ∧ ks.Pairwise (· < ·) ∧
        (∀ k ∈ ks, ∃ p ∈ suf, (val p).first = k) ∧
        ∀ p ∈ suf, (val p).first ≤ inst.mLastMonad → (val p).first ∈ ks := by
  intro fuel
  induction fuel with
  | zero =>
    intro suf _ hlen
    exact absurd hlen (Nat.not_lt_zero _)
  | succ fuel ih =>
    intro suf hl hlen
    cases suf with
    | nil => exact ⟨[], rfl, List.Pairwise.nil, by simp, by simp⟩
    | cons x rest =>
      obtain ⟨pre, hpre⟩ := id hl
      obtain ⟨suf', hnext, hl', hsub, hlater, hmem⟩ := nextAtHigherKey_spec h hl
      have hlen' : suf'.length < fuel := by
        have := hsub.length_le
        rw [List.length_cons] at hlen
        omega
      obtain ⟨ks, hdrain, hasc, hfrom, hall⟩ := ih suf' hl' hlen'
      rw [List.headD_cons, drain, if_pos (h.at_cons hpre.symm).2.2, h.currentKey hpre.symm,
        Option.bind_some, hnext, Option.bind_some, hdrain, Option.map_some]
      refine ⟨_, rfl, List.pairwise_cons.mpr ⟨?_, hasc⟩, ?_, ?_⟩
      · intro k hk
        obtain ⟨p, hp, rfl⟩ := hfrom k hk
        exact hlater p hp
      · intro k hk
        rcases List.mem_cons.mp hk with rfl | hk
        · exact ⟨x, List.mem_cons_self, rfl⟩
        · obtain ⟨p, hp, rfl⟩ := hfrom k hk
          exact ⟨p, List.mem_cons_of_mem x (hsub.subset hp), rfl⟩
      · intro p hp hlast
        rcases List.mem_cons.mp hp with rfl | hp
        · exact List.mem_cons_self
        · rcases eq_or_lt_of_le (h.first_le hl p hp) with heq | hlt
          · rw [← heq]
            exact List.mem_cons_self
          · exact List.mem_cons_of_mem _ (hall p (hmem p hp hlt hlast) hlast)

end Inst

end Moves

/-! ## 3. What the iterator yields -/

/-- What a start-monad iterator yields, and what it must not miss. -/
structure StartMonadsOf (objs : List InstObject) (U : SetOfMonads) (Sm : Int)
    (ks : List Int) : Prop where
  ascending : ks.Pairwise (· < ·)
  from_Sm : ∀ k ∈ ks, Sm ≤ k ∧ U.first ≤ k
  of_object : ∀ k ∈ ks, ∃ o ∈ objs, o.first = k
  complete : ∀ o ∈ objs, Sm ≤ o.first → U.first ≤ o.first → o.first ≤ U.last → o.first ∈ ks

/-- **`InstStartMonadIterator`** yields the first monads of the objects from the start monad on that
start in the universe; at most one of what it yields is beyond the universe. -/
theorem instStartMonads_spec {s : SkipList} {L : Nat → List Nat} {val : Nat → InstObject}
    (h : SkipList.Inv s L val) {U : SetOfMonads} (hU : U.first ≤ nilKey) (Sm : Int) :
    ∃ ks, instStartMonads s U Sm = some ks ∧ StartMonadsOf ((L 0).map val) U Sm ks := by
  have ht := test_first_lt hU
  have hl : after val (fun q => q.first < U.first) (L 0) <:+ L 0 := ⟨_, (h.split ht 0).symm⟩
  obtain ⟨suf, hseek, hl', hsub, hSm, hmem⟩ :=
    @Inst.seek_spec ⟨s, U.first, U.last⟩ L val h Sm s.free _ hl (h.length_lt_of_suffix hl)
  obtain ⟨ks, hdrain, hasc, hfrom, hall⟩ :=
    @Inst.drain_spec ⟨s, U.first, U.last⟩ L val h s.free suf hl' (h.length_lt_of_suffix hl')
  have hbegin : (Inst.mk s U.first U.last).begin
      = some ((after val (fun q => q.first < U.first) (L 0)).headD nilPtr) := h.search hU
  refine ⟨ks, ?_, hasc, ?_, ?_, ?_⟩
  · dsimp only [instStartMonads, Inst.setCurrentUniverse]
    rw [hbegin, Option.bind_some, hseek, Option.bind_some, hdrain]
  · intro k hk
    obtain ⟨p, hp, rfl⟩ := hfrom k hk
    have hafter := (mem_after.mp (hsub.subset hp)).2
    exact ⟨hSm p hp, not_lt.mp (by simpa using hafter)⟩
  · intro k hk
    obtain ⟨p, hp, rfl⟩ := hfrom k hk
    exact ⟨val p, List.mem_map_of_mem (hl'.subset hp), rfl⟩
  · intro o ho hge hfirst hlast
    obtain ⟨p, hp, rfl⟩ := List.mem_map.mp ho
    have hafter : p ∈ after val (fun q => q.first < U.first) (L 0) :=
      mem_after.mpr ⟨hp, by simpa using hfirst⟩
    exact hall p (hmem p hafter hge hlast) hlast

/-- The objects of an inst are those that were added, whatever levels `randomLevel()` chose. -/
theorem instStartMonads_insertAll (ins : List (InstObject × Nat))
    (hkey : ∀ i ∈ ins, i.1.first < nilKey) (hrandom : ∀ i ∈ ins, i.2 ≤ maxLevel) :
    ∃ s, SkipList.insertAll ins = some s ∧ ∀ (U : SetOfMonads) (Sm : Int), U.first ≤ nilKey →
      ∃ ks, instStartMonads s U Sm = some ks ∧
        StartMonadsOf (ins.map fun i => i.1) U Sm ks := by
  obtain ⟨s, L, val, hs, h, hperm⟩ := SkipList.inv_insertAll ins hkey hrandom
  refine ⟨s, hs, fun U Sm hU => ?_⟩
  obtain ⟨ks, hks, hspec⟩ := instStartMonads_spec h hU Sm
  refine ⟨ks, hks, hspec.ascending, hspec.from_Sm, ?_, ?_⟩
  · intro k hk
    obtain ⟨o, ho, hfirst⟩ := hspec.of_object k hk
    exact ⟨o, hperm.mem_iff.mp ho, hfirst⟩
  · intro o ho
    exact hspec.complete o (hperm.mem_iff.mpr ho)

end Emdros
