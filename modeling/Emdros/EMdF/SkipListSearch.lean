/-
# What a skip list answers

An iterator stands at the first node of a final part of level `0`, or at `m_NIL` when that part
is empty; each query is computed on such parts, and the levels above only shorten the way to them.
So what `search`, `equal_range`, `hasObject` and `advanceToNextKey` give is read off the sorted list
of level `0`, once it is known that going down through the levels ends at the last node before the
key (`Inv.search`).

`OrderedMultimap` collects what a skip list should be for the objects that were inserted: its
objects are these, in the order of first monads and ids, and every query answers as that list does.
`insertAll_orderedMultimap` shows that it is, whatever levels `randomLevel()` chose.  The keys are
the first monads below `0x7fffffff`, which is the key of `m_NIL`.
-/
import Emdros.EMdF.SkipListInv

namespace Emdros

open Linked

namespace SkipList

section Queries

variable {s : SkipList} {L : Nat → List Nat} {val : Nat → InstObject}

/-! ## 1. Iterators -/

theorem hasNext_of_lt {x : Nat} (hx : headPtr < x) : s.hasNext x = true := by
  have hne : x ≠ nilPtr := by
    unfold headPtr at hx
    unfold nilPtr
    omega
  exact decide_eq_true hne

/-- The node at an iterator that is not at the end. -/
theorem Inv.at_cons (h : Inv s L val) {pre suf : List Nat} {x : Nat}
    (hl : L 0 = pre ++ x :: suf) :
    s.valueOf x = some (val x) ∧ s.forwardOf 0 x = some (suf.headD nilPtr) ∧
      s.hasNext x = true := by
  have hmem : x ∈ L 0 := by rw [hl]; simp
  have hpath := h.path 0 (Nat.zero_le _)
  rw [hl, path_append_cons] at hpath
  exact ⟨h.value x hmem, hpath.2.next_eq, hasNext_of_lt (h.allocated x hmem).1⟩

@[simp] theorem hasNext_nil (s : SkipList) : s.hasNext nilPtr = false := rfl

/-- `next()`. -/
theorem Inv.next (h : Inv s L val) {pre suf : List Nat} {x : Nat} (hl : L 0 = pre ++ x :: suf) :
    s.next x = some (val x, suf.headD nilPtr) := by
  obtain ⟨hv, hf, hn⟩ := h.at_cons hl
  rw [SkipList.next, if_pos hn, hv, Option.bind_some, hf, Option.map_some]

theorem Inv.currentKey (h : Inv s L val) {pre suf : List Nat} {x : Nat}
    (hl : L 0 = pre ++ x :: suf) : s.currentKey x = some (val x).first := by
  rw [SkipList.currentKey, (h.at_cons hl).1, Option.map_some]

/-- Moving an iterator on: the node it leaves joins the part before it. -/
theorem move {l pre suf : List Nat} {x : Nat} (hl : l = pre ++ x :: suf) :
    l = (pre ++ [x]) ++ suf := by
  rw [hl, List.append_assoc]
  rfl

theorem Inv.visitLoop (h : Inv s L val) : ∀ (suf pre : List Nat) (fuel : Nat),
    L 0 = pre ++ suf → suf.length < fuel →
      s.visitLoop fuel (suf.headD nilPtr) = some (suf.map val)
  | [], _, fuel + 1, _, _ => rfl
  | x :: suf, pre, fuel + 1, hl, hfuel => by
    have ih := h.visitLoop suf (pre ++ [x]) fuel (move hl) (by simpa using hfuel)
    rw [List.headD_cons, SkipList.visitLoop, if_pos (h.at_cons hl).2.2, h.next hl,
      Option.bind_some, ih]
    rfl

/-- What an iterator visits. -/
theorem Inv.visit (h : Inv s L val) {pre suf : List Nat} (hl : L 0 = pre ++ suf) :
    s.visit (suf.headD nilPtr) = some (suf.map val) := by
  refine h.visitLoop suf pre s.free hl ?_
  have hlen := h.length_lt 0
  rw [hl, List.length_append] at hlen
  omega

theorem Inv.begin (h : Inv s L val) : s.begin = some ((L 0).headD nilPtr) :=
  (h.path 0 (Nat.zero_le _)).next_eq

theorem followLoop_of_path {k : Nat} : ∀ (xs : List Nat) (fuel p : Nat),
    Path (s.forwardOf k) p xs nilPtr → xs.length < fuel → (∀ x ∈ xs, s.hasNext x = true) →
      s.followLoop k fuel p = some xs
  | [], fuel + 1, p, hpath, _, _ => by
    rw [followLoop, path_nil.mp hpath, Option.bind_some, hasNext_nil]
    rfl
  | x :: xs, fuel + 1, p, hpath, hfuel, hxs => by
    have ih := followLoop_of_path xs fuel x hpath.2 (by simpa using hfuel)
      fun y hy => hxs y (List.mem_cons_of_mem x hy)
    rw [followLoop, hpath.1, Option.bind_some, if_pos (hxs x List.mem_cons_self), ih]
    rfl

/-- The nodes of a level. -/
theorem Inv.nodesAt (h : Inv s L val) {k : Nat} (hk : k ≤ maxLevel) :
    s.nodesAt k = some (L k) := by
  refine followLoop_of_path (L k) s.free headPtr (h.path k hk) (h.length_lt k) ?_
  intro x hx
  exact hasNext_of_lt (h.allocated x ((h.sub_zero k).subset hx)).1

/-! ## 2. `search` -/

theorem Inv.searchFrom (h : Inv s L val) {key : Int} (hkey : key ≤ nilKey) :
    ∀ (k p : Nat), k ≤ maxLevel → p ∈ headPtr :: before val (fun q => q.first < key) (L k) →
      s.searchFrom key k p
        = some ((after val (fun q => q.first < key) (L 0)).headD nilPtr)
  | 0, p, hk, hp => by
    rw [SkipList.searchFrom, h.scan (test_first_lt hkey) hk hp]
    rfl
  | k + 1, p, hk, hp => by
    rw [SkipList.searchFrom, h.scan (test_first_lt hkey) hk hp, Option.bind_some]
    exact h.searchFrom hkey k _ (by omega) (h.descend k)

/-- **`search`** ends at the first node whose object does not start before `key`. -/
theorem Inv.search (h : Inv s L val) {key : Int} (hkey : key ≤ nilKey) :
    s.search key = some ((after val (fun q => q.first < key) (L 0)).headD nilPtr) :=
  h.searchFrom hkey s.level headPtr h.level_le List.mem_cons_self

/-- The objects from there on. -/
theorem Inv.map_after (h : Inv s L val) {test : InstObject → Bool} (ht : Test test) :
    (after val test (L 0)).map val = ((L 0).map val).dropWhile test := by
  rw [List.dropWhile_map, after,
    ← dropWhile_eq_filter_not (fun a b => ht.down (val a) (val b)) h.sorted]
  rfl

theorem Inv.visit_search (h : Inv s L val) {key : Int} (hkey : key ≤ nilKey) :
    ∃ it, s.search key = some it ∧
      s.visit it = some (((L 0).map val).dropWhile fun o => o.first < key) := by
  have ht := test_first_lt hkey
  exact ⟨_, h.search hkey, by rw [h.visit (h.split ht 0), h.map_after ht]⟩

/-! ## 3. `equal_range` and `hasObject` -/

theorem Inv.equalRangeLoop (h : Inv s L val) (key : Int) : ∀ (suf pre : List Nat) (fuel : Nat),
    L 0 = pre ++ suf → suf.length < fuel →
      s.equalRangeLoop key fuel (suf.headD nilPtr)
        = some ((suf.dropWhile fun p => decide ((val p).first = key)).headD nilPtr)
  | [], _, fuel + 1, _, _ => rfl
  | x :: suf, pre, fuel + 1, hl, hfuel => by
    have ih := h.equalRangeLoop key suf (pre ++ [x]) fuel (move hl) (by simpa using hfuel)
    rw [List.headD_cons, SkipList.equalRangeLoop, if_pos (h.at_cons hl).2.2, h.currentKey hl,
      Option.bind_some]
    by_cases hx : (val x).first = key
    · rw [if_pos hx, h.next hl, Option.bind_some, ih,
        List.dropWhile_cons_of_pos (by simpa using hx)]
    · rw [if_neg hx, List.dropWhile_cons_of_neg (by simpa using hx), List.headD_cons]

theorem Inv.hasObjectLoop (h : Inv s L val) (key objectIdD : Int) :
    ∀ (suf pre : List Nat) (fuel : Nat), L 0 = pre ++ suf → suf.length < fuel →
      ∃ r, s.hasObjectLoop key objectIdD fuel (suf.headD nilPtr) = some r ∧
        (r = true ↔ ∃ p ∈ suf.takeWhile fun p => decide ((val p).first = key),
          (val p).idD = objectIdD)
  | [], _, fuel + 1, _, _ => ⟨false, rfl, by simp⟩
  | x :: suf, pre, fuel + 1, hl, hfuel => by
    obtain ⟨r, hr, hiff⟩ := h.hasObjectLoop key objectIdD suf (pre ++ [x]) fuel (move hl)
      (by simpa using hfuel)
    rw [List.headD_cons, SkipList.hasObjectLoop, if_pos (h.at_cons hl).2.2, h.currentKey hl,
      Option.bind_some]
    by_cases hx : (val x).first = key
    · rw [if_pos hx, h.next hl, Option.bind_some, List.takeWhile_cons_of_pos (by simpa using hx)]
      by_cases hid : (val x).idD = objectIdD
      · exact ⟨true, if_pos hid, by simp [hid]⟩
      · refine ⟨r, by rw [if_neg hid, hr], ?_⟩
        rw [hiff]
        simp [hid]
    · rw [if_neg hx, List.takeWhile_cons_of_neg (by simpa using hx)]
      exact ⟨false, rfl, by simp⟩

/-- From `search key` on, the objects with first monad `key` come first, and there are no
others. -/
theorem Inv.takeWhile_key (h : Inv s L val) {key : Int} (hkey : key ≤ nilKey) :
    (after val (fun q => q.first < key) (L 0)).takeWhile (fun p => decide ((val p).first = key))
      = (L 0).filter fun p => decide ((val p).first = key) := by
  have hfirst : (after val (fun q => q.first < key) (L 0)).takeWhile
      (fun p => decide ((val p).first = key))
      = (after val (fun q => q.first < key) (L 0)).filter
          fun p => decide ((val p).first = key) := by
    refine takeWhile_eq_filter
      (R := fun a b => Ordered (val a) (val b) ∧ key ≤ (val a).first) ?_ ?_
    · rintro a b ⟨hab, hge⟩ hb
      simp only [decide_eq_true_eq] at hb ⊢
      unfold Ordered at hab
      omega
    · refine (h.sorted.sublist List.filter_sublist).imp_of_mem ?_
      intro a b ha _ hab
      have hge : ¬ (val a).first < key := by simpa using (List.mem_filter.mp ha).2
      exact ⟨hab, Int.not_lt.mp hge⟩
  have hnone : (before val (fun q => q.first < key) (L 0)).filter
      (fun p => decide ((val p).first = key)) = [] := by
    rw [List.filter_eq_nil_iff]
    intro p hp
    have := of_decide_eq_true (mem_before.mp hp).2
    simp only [decide_eq_true_eq]
    omega
  rw [hfirst, h.split (test_first_lt hkey) 0, List.filter_append, hnone, List.nil_append,
    ← h.split (test_first_lt hkey) 0]

/-- **`equal_range`** delimits the objects with first monad `key`. -/
theorem Inv.equalRange (h : Inv s L val) {key : Int} (hkey : key ≤ nilKey) :
    ∃ b it it' mid tail, s.equalRange key = some (b, it, it') ∧
      s.visit it = some (mid ++ tail) ∧ s.visit it' = some tail ∧
      mid = ((L 0).map val).filter (fun o => decide (o.first = key)) ∧
      (b = true ↔ mid ≠ []) := by
  have hsplit := h.split (test_first_lt hkey) 0
  have htake := h.takeWhile_key hkey
  have hmap : ((L 0).map val).filter (fun o => decide (o.first = key))
      = ((L 0).filter fun p => decide ((val p).first = key)).map val := by
    rw [List.filter_map]
    rfl
  have hend : s.visit nilPtr = some [] := h.visit (List.append_nil (L 0)).symm
  rw [hmap, ← htake, SkipList.equalRange, h.search hkey, Option.bind_some]
  cases hA : after val (fun q => q.first < key) (L 0) with
  | nil => exact ⟨false, nilPtr, nilPtr, [], [], rfl, hend, hend, rfl, by simp⟩
  | cons x rest =>
    rw [hA] at hsplit
    rw [List.headD_cons, if_pos (h.at_cons hsplit).2.2, h.currentKey hsplit, Option.bind_some]
    by_cases hx : (val x).first = key
    · have hlen := h.length_lt 0
      rw [hsplit, List.length_append] at hlen
      have hloop := h.equalRangeLoop key (x :: rest) _ s.free hsplit (by omega)
      rw [List.headD_cons] at hloop
      rw [if_neg (not_not.mpr hx), hloop, Option.map_some]
      have htail : L 0 = (before val (fun q => q.first < key) (L 0) ++
          (x :: rest).takeWhile fun p => decide ((val p).first = key)) ++
          (x :: rest).dropWhile fun p => decide ((val p).first = key) := by
        rw [List.append_assoc, List.takeWhile_append_dropWhile]
        exact hsplit
      refine ⟨true, x, _, _, _, rfl, ?_, h.visit htail, rfl, ?_⟩
      · rw [← List.map_append, List.takeWhile_append_dropWhile]
        exact h.visit hsplit
      · simp [hx]
    · rw [if_pos hx, List.takeWhile_cons_of_neg (by simpa using hx)]
      exact ⟨false, nilPtr, nilPtr, [], [], rfl, hend, hend, rfl, by simp⟩

/-- **`hasObject`** finds exactly the objects that are there. -/
theorem Inv.hasObject (h : Inv s L val) {key : Int} (hkey : key ≤ nilKey) (objectIdD : Int) :
    ∃ r, s.hasObject key objectIdD = some r ∧
      (r = true ↔ ∃ o ∈ (L 0).map val, o.first = key ∧ o.idD = objectIdD) := by
  have hsplit := h.split (test_first_lt hkey) 0
  have hiff : (∃ o ∈ (L 0).map val, o.first = key ∧ o.idD = objectIdD) ↔
      ∃ p ∈ (after val (fun q => q.first < key) (L 0)).takeWhile
        (fun p => decide ((val p).first = key)), (val p).idD = objectIdD := by
    rw [h.takeWhile_key hkey]
    simp only [List.mem_map, List.mem_filter, decide_eq_true_eq]
    constructor
    · rintro ⟨o, ⟨p, hp, rfl⟩, hfirst, hid⟩
      exact ⟨p, ⟨hp, hfirst⟩, hid⟩
    · rintro ⟨p, ⟨hp, hfirst⟩, hid⟩
      exact ⟨val p, ⟨p, hp, rfl⟩, hfirst, hid⟩
  rw [hiff, SkipList.hasObject, h.search hkey, Option.bind_some]
  cases hA : after val (fun q => q.first < key) (L 0) with
  | nil => exact ⟨false, rfl, by simp⟩
  | cons x rest =>
    rw [hA] at hsplit
    rw [List.headD_cons, if_pos (h.at_cons hsplit).2.2, h.currentKey hsplit, Option.bind_some]
    by_cases hx : (val x).first = key
    · have hlen := h.length_lt 0
      rw [hsplit, List.length_append] at hlen
      obtain ⟨r, hr, hiff'⟩ := h.hasObjectLoop key objectIdD (x :: rest) _ s.free hsplit (by omega)
      rw [List.headD_cons] at hr
      exact ⟨r, by rw [if_neg (not_not.mpr hx), hr], hiff'⟩
    · rw [if_pos hx, List.takeWhile_cons_of_neg (by simpa using hx)]
      exact ⟨false, rfl, by simp⟩

/-! ## 4. `advanceToNextKey` -/

theorem Inv.advanceLoop (h : Inv s L val) (m : Int) : ∀ (suf pre : List Nat) (x fuel : Nat),
    L 0 = pre ++ x :: suf → suf.length < fuel →
      s.advanceLoop m fuel x = some
        (match suf.dropWhile fun p => decide ((val p).first ≤ m) with
          | [] => (0, nilPtr)
          | y :: _ => ((val y).first, y))
  | [], pre, x, fuel + 1, hl, _ => by
    rw [SkipList.advanceLoop, (h.at_cons hl).2.1, Option.bind_some]
    rfl
  | y :: suf, pre, x, fuel + 1, hl, hfuel => by
    have hl' := move hl
    have ih := h.advanceLoop m suf (pre ++ [x]) y fuel hl' (by simpa using hfuel)
    rw [SkipList.advanceLoop, (h.at_cons hl).2.1, Option.bind_some, List.headD_cons,
      if_pos (h.at_cons hl').2.2, h.currentKey hl', Option.bind_some]
    by_cases hy : (val y).first > m
    · rw [if_pos hy, List.dropWhile_cons_of_neg (by simpa using hy)]
    · rw [if_neg hy, List.dropWhile_cons_of_pos (by simpa using hy), ih]

/-- **Iterating `advanceToNextKey`** visits the first monads from an iterator on, ascending. -/
theorem Inv.keysLoop (h : Inv s L val) : ∀ (fuel : Nat) (suf pre : List Nat) (x : Nat),
    L 0 = pre ++ x :: suf → suf.length < fuel →
      ∃ ks, s.keysLoop fuel x (val x).first = some ks ∧ ks.Pairwise (· < ·) ∧
        ∀ m, m ∈ ks ↔ ∃ p ∈ x :: suf, (val p).first = m
  | fuel + 1, suf, pre, x, hl, hfuel => by
    have hlen := h.length_lt 0
    have hsorted := h.sorted
    rw [hl] at hlen hsorted
    rw [List.length_append, List.length_cons] at hlen
    obtain ⟨hx, hsuf⟩ := List.pairwise_cons.mp (List.pairwise_append.mp hsorted).2.1
    have hge : ∀ p ∈ suf, (val x).first ≤ (val p).first := by
      intro p hp
      have := hx p hp
      unfold Ordered at this
      omega
    have hadvance : s.advanceToNextKey x = some
        (match suf.dropWhile fun p => decide ((val p).first ≤ (val x).first) with
          | [] => (0, nilPtr)
          | y :: _ => ((val y).first, y)) := by
      rw [advanceToNextKey, if_pos (h.at_cons hl).2.2, h.currentKey hl, Option.bind_some]
      exact h.advanceLoop (val x).first suf pre x s.free hl (by omega)
    have hsplit := List.takeWhile_append_dropWhile
      (p := fun p => decide ((val p).first ≤ (val x).first)) (l := suf)
    -- what is skipped has the key just visited
    have hskip : ∀ p ∈ suf.takeWhile fun p => decide ((val p).first ≤ (val x).first),
        (val p).first = (val x).first := by
      intro p hp
      have hle := List.all_eq_true.mp (List.all_takeWhile) p hp
      exact Int.le_antisymm (of_decide_eq_true hle)
        (hge p ((List.takeWhile_sublist _).subset hp))
    rw [SkipList.keysLoop, hadvance, Option.bind_some]
    cases hd : suf.dropWhile fun p => decide ((val p).first ≤ (val x).first) with
    | nil =>
      refine ⟨[(val x).first], by simp, List.pairwise_singleton _ _, ?_⟩
      intro m
      rw [hd, List.append_nil] at hsplit
      rw [hsplit] at hskip
      constructor
      · intro hm
        exact ⟨x, List.mem_cons_self, (List.mem_singleton.mp hm).symm⟩
      · rintro ⟨p, hp, rfl⟩
        rcases List.mem_cons.mp hp with rfl | hp
        · exact List.mem_singleton.mpr rfl
        · exact List.mem_singleton.mpr (hskip p hp)
    | cons y suf' =>
      have hgt : (val x).first < (val y).first := by
        have := List.head?_dropWhile_not (fun p => decide ((val p).first ≤ (val x).first)) suf
        rw [hd] at this
        simpa using this
      rw [hd] at hsplit
      have hl' : L 0 = (pre ++ x ::
          suf.takeWhile fun p => decide ((val p).first ≤ (val x).first)) ++ y :: suf' := by
        rw [List.append_assoc, List.cons_append, hsplit]
        exact hl
      have hlen' : suf'.length < fuel := by
        have := congrArg List.length hsplit
        rw [List.length_append, List.length_cons] at this
        omega
      obtain ⟨ks, hks, hasc, hmem⟩ := h.keysLoop fuel suf' _ y hl' hlen'
      have hge' : ∀ p ∈ y :: suf', (val y).first ≤ (val p).first := by
        rw [← hsplit] at hsuf
        obtain ⟨hy, -⟩ := List.pairwise_cons.mp (List.pairwise_append.mp hsuf).2.1
        intro p hp
        rcases List.mem_cons.mp hp with rfl | hp
        · exact Int.le_refl _
        · have := hy p hp
          unfold Ordered at this
          omega
      refine ⟨(val x).first :: ks, ?_, List.pairwise_cons.mpr ⟨?_, hasc⟩, ?_⟩
      · simp only [(h.at_cons hl').2.2, if_true, hks, Option.map_some]
      · intro m hm
        obtain ⟨p, hp, rfl⟩ := (hmem m).mp hm
        have := hge' p hp
        omega
      · intro m
        rw [List.mem_cons, hmem]
        constructor
        · rintro (rfl | ⟨p, hp, rfl⟩)
          · exact ⟨x, List.mem_cons_self, rfl⟩
          · refine ⟨p, List.mem_cons_of_mem x ?_, rfl⟩
            rw [← hsplit]
            exact List.mem_append_right _ hp
        · rintro ⟨p, hp, rfl⟩
          rcases List.mem_cons.mp hp with rfl | hp
          · exact Or.inl rfl
          · rw [← hsplit] at hp
            rcases List.mem_append.mp hp with hp | hp
            · exact Or.inl (hskip p hp)
            · exact Or.inr ⟨p, hp, rfl⟩

theorem Inv.keys (h : Inv s L val) :
    ∃ ks, s.keys = some ks ∧ ks.Pairwise (· < ·) ∧
      ∀ m, m ∈ ks ↔ ∃ o ∈ (L 0).map val, o.first = m := by
  rw [SkipList.keys, h.begin, Option.bind_some]
  cases hl : L 0 with
  | nil => exact ⟨[], rfl, List.Pairwise.nil, by simp⟩
  | cons x suf =>
    have hlen := h.length_lt 0
    rw [hl, List.length_cons] at hlen
    obtain ⟨ks, hks, hasc, hmem⟩ := h.keysLoop s.free suf [] x hl (by omega)
    have hl' : L 0 = [] ++ x :: suf := hl
    rw [List.headD_cons, if_pos (h.at_cons hl').2.2, h.currentKey hl', Option.bind_some]
    refine ⟨ks, hks, hasc, ?_⟩
    intro m
    rw [hmem]
    constructor
    · rintro ⟨p, hp, hm⟩
      exact ⟨val p, List.mem_map.mpr ⟨p, hp, rfl⟩, hm⟩
    · rintro ⟨o, ho, hm⟩
      obtain ⟨p, hp, rfl⟩ := List.mem_map.mp ho
      exact ⟨p, hp, hm⟩

end Queries

/-! ## 5. An ordered multimap -/

/-- What a skip list should be for the objects that were inserted; `objs` is what is visited
from `begin()`. -/
structure OrderedMultimap (s : SkipList) (inserted objs : List InstObject) : Prop where
  /-- Following `m_forward[0]` visits the inserted objects, each once, in order. -/
  visits : s.begin.bind s.visit = some objs
  inserted_once : objs.Perm inserted
  ordered : objs.Pairwise Ordered
  /-- Every higher level is a subsequence of the level below. -/
  levels : ∀ k < maxLevel, ∃ upper lower, s.nodesAt (k + 1) = some upper ∧
    s.nodesAt k = some lower ∧ upper.Sublist lower
  /-- `search` returns the first object that starts at `key` or later, or the end. -/
  search : ∀ key ≤ nilKey, ∃ it, s.search key = some it ∧
    s.visit it = some (objs.dropWhile fun o => o.first < key)
  /-- `equal_range` delimits the objects that start at `key`. -/
  equalRange : ∀ key ≤ nilKey, ∃ b it it' mid tail, s.equalRange key = some (b, it, it') ∧
    s.visit it = some (mid ++ tail) ∧ s.visit it' = some tail ∧
    mid = objs.filter (fun o => decide (o.first = key)) ∧ (b = true ↔ mid ≠ [])
  /-- `hasObject` answers whether such an object was inserted. -/
  hasObject : ∀ key ≤ nilKey, ∀ objectIdD, ∃ r, s.hasObject key objectIdD = some r ∧
    (r = true ↔ ∃ o ∈ inserted, o.first = key ∧ o.idD = objectIdD)
  /-- Iterating `advanceToNextKey` visits each first monad once, ascending. -/
  keys : ∃ ks, s.keys = some ks ∧ ks.Pairwise (· < ·) ∧
    ∀ m, m ∈ ks ↔ ∃ o ∈ inserted, o.first = m

/-- **A skip list is an ordered multimap**, after any sequence of insertions of objects that
start before `0x7fffffff`, whatever `randomLevel()` returned at each. -/
theorem insertAll_orderedMultimap (ins : List (InstObject × Nat))
    (hkey : ∀ i ∈ ins, i.1.first < nilKey) (hrandom : ∀ i ∈ ins, i.2 ≤ maxLevel) :
    ∃ s objs, insertAll ins = some s ∧ OrderedMultimap s (ins.map fun i => i.1) objs := by
  obtain ⟨s, L, val, hs, h, hperm⟩ := inv_insertAll ins hkey hrandom
  have hmem : ∀ o, o ∈ (L 0).map val ↔ o ∈ ins.map fun i => i.1 := fun o => hperm.mem_iff
  refine ⟨s, (L 0).map val, hs,
    { visits := ?_, inserted_once := hperm, ordered := List.pairwise_map.mpr h.sorted,
      levels := ?_, search := fun _ hk => h.visit_search hk,
      equalRange := fun _ hk => h.equalRange hk, hasObject := ?_, keys := ?_ }⟩
  · rw [h.begin, Option.bind_some]
    exact h.visit (List.nil_append (L 0)).symm
  · intro k hk
    exact ⟨L (k + 1), L k, h.nodesAt hk, h.nodesAt (Nat.le_of_lt hk), h.sub k⟩
  · intro key hk objectIdD
    obtain ⟨r, hr, hiff⟩ := h.hasObject hk objectIdD
    refine ⟨r, hr, hiff.trans ?_⟩
    constructor
    · rintro ⟨o, ho, hfound⟩
      exact ⟨o, (hmem o).mp ho, hfound⟩
    · rintro ⟨o, ho, hfound⟩
      exact ⟨o, (hmem o).mpr ho, hfound⟩
  · obtain ⟨ks, hks, hasc, hiff⟩ := h.keys
    refine ⟨ks, hks, hasc, fun m => (hiff m).trans ?_⟩
    constructor
    · rintro ⟨o, ho, hfound⟩
      exact ⟨o, (hmem o).mp ho, hfound⟩
    · rintro ⟨o, ho, hfound⟩
      exact ⟨o, (hmem o).mpr ho, hfound⟩

/-- Four objects, two with the same first monad, on levels `0`, `17`, `1` and `3`. -/
theorem insertAll_orderedMultimap_example :
    ∃ s objs, insertAll [(⟨7, 10⟩, 0), (⟨5, 10⟩, 17), (⟨9, 3⟩, 1), (⟨2, 30⟩, 3)] = some s ∧
      OrderedMultimap s [⟨7, 10⟩, ⟨5, 10⟩, ⟨9, 3⟩, ⟨2, 30⟩] objs :=
  insertAll_orderedMultimap _ (by decide) (by decide)

end SkipList

end Emdros
