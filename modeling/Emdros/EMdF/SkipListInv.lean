/-
# The skip list invariant

`Inv s L val` ties the memory of a skip list to what it stands for: `L k` is the list of nodes
on level `k` and `val` their objects.  Level `k` is a path of forward pointers from the head to
`m_NIL`; each level is a sublist of the one below; the nodes of level `0` are in order.

The step lemma is `Inv.insert`: whatever `randomLevel()` returns, an insertion puts the new
node, on each level it reaches, behind exactly the nodes that are smaller.
-/
import Emdros.Base.Linked
import Emdros.EMdF.SkipList
import Mathlib.Data.List.Nodup
import Mathlib.Order.Basic

namespace Emdros

open Linked

namespace SkipList

/-! ## 1. Order -/

/-- The order of the objects: by first monad, then by `id_d`. -/
def Ordered (a b : InstObject) : Prop := a.first < b.first ∨ a.first = b.first ∧ a.idD ≤ b.idD

theorem cmpSkipListNode_iff {pValue q : InstObject} :
    cmpSkipListNode pValue.first pValue q = true ↔
      q.first < pValue.first ∨ q.first = pValue.first ∧ q.idD < pValue.idD := by
  simp only [cmpSkipListNode]
  split
  · rename_i h
    simp [h]
  · rename_i h
    split
    · simp only [Bool.false_eq_true, false_iff]
      omega
    · simp only [decide_eq_true_eq]
      omega

/-- What the loops on a level need of their test: it passes from later objects to earlier ones
and fails for the object in `m_NIL`. -/
structure Test (test : InstObject → Bool) : Prop where
  down : ∀ a b, Ordered a b → test b = true → test a = true
  nil : test ⟨0, nilKey⟩ = false

/-- The test of `insert`. -/
theorem test_cmpSkipListNode {pValue : InstObject} (h : pValue.first < nilKey) :
    Test (cmpSkipListNode pValue.first pValue) where
  down := by
    intro a b hab hb
    rw [cmpSkipListNode_iff] at hb ⊢
    unfold Ordered at hab
    omega
  nil := by
    rw [Bool.eq_false_iff, ne_eq, cmpSkipListNode_iff]
    simp only
    omega

/-- The test of `search`. -/
theorem test_first_lt {key : Int} (h : key ≤ nilKey) : Test fun q => q.first < key where
  down := by
    intro a b hab hb
    simp only [decide_eq_true_eq] at hb ⊢
    unfold Ordered at hab
    omega
  nil := by
    simp only [decide_eq_false_iff_not]
    omega

/-! ## 2. Writing to memory -/

/-- Two states with the same level, arena bound and payloads. -/
structure SameObjects (s s' : SkipList) : Prop where
  level : s'.level = s.level
  free : s'.free = s.free
  value : ∀ x, s'.valueOf x = s.valueOf x

theorem SameObjects.trans {s s' s'' : SkipList} (h : SameObjects s s')
    (h' : SameObjects s' s'') : SameObjects s s'' where
  level := h'.level.trans h.level
  free := h'.free.trans h.free
  value := fun x => (h'.value x).trans (h.value x)

/-- Writing a forward pointer that is there. -/
theorem setForward_spec {s : SkipList} {p r : Nat} {k : Nat} (v : Nat)
    (h : s.forwardOf k p = some r) :
    ∃ s', s.setForward p k v = some s' ∧ SameObjects s s' ∧
      ∀ j x, s'.forwardOf j x = if j = k ∧ x = p then some v else s.forwardOf j x := by
  unfold forwardOf at h
  obtain ⟨node, hnode, hk⟩ := Option.bind_eq_some_iff.mp h
  have hlt : k < node.forward.length := (List.getElem?_eq_some_iff.mp hk).1
  refine ⟨{ s with mem := Function.update s.mem p
                       (some { node with forward := node.forward.set k v }) },
    ?_, ⟨rfl, rfl, ?_⟩, ?_⟩
  · simp only [setForward, hnode, Option.bind_some, if_pos hlt]
  · intro x
    unfold valueOf
    by_cases hx : x = p
    · simp only [hx, Function.update_self, hnode, Option.bind_some]
    · simp only [Function.update_of_ne hx]
  · intro j x
    unfold forwardOf
    by_cases hx : x = p
    · simp only [hx, Function.update_self, Option.bind_some, and_true, hnode]
      by_cases hj : j = k
      · rw [hj, if_pos rfl, List.getElem?_set_self hlt]
      · rw [if_neg hj, List.getElem?_set_ne (Ne.symm hj)]
    · simp only [Function.update_of_ne hx, hx, and_false, if_false]

/-- One level of linking `q` in behind `u`. -/
theorem linkAt_spec {s : SkipList} {q u n r : Nat} {update : List Nat} {k : Nat}
    (hu : update[k]? = some u) (hne : u ≠ q) (hn : s.forwardOf k u = some n)
    (hq : s.forwardOf k q = some r) :
    ∃ s', s.linkAt q update k = some s' ∧ SameObjects s s' ∧
      ∀ j x, s'.forwardOf j x = if j = k then
        (if x = q then some n else if x = u then some q else s.forwardOf j x)
      else s.forwardOf j x := by
  obtain ⟨s₁, h₁, hsame₁, hfwd₁⟩ := setForward_spec n hq
  have hn₁ : s₁.forwardOf k u = some n := by
    rw [hfwd₁, if_neg (fun h => hne h.2), hn]
  obtain ⟨s₂, h₂, hsame₂, hfwd₂⟩ := setForward_spec q hn₁
  refine ⟨s₂, ?_, hsame₁.trans hsame₂, ?_⟩
  · rw [linkAt, hu, Option.bind_some, hn, Option.bind_some, h₁, Option.bind_some, h₂]
  · intro j x
    rw [hfwd₂, hfwd₁]
    by_cases hj : j = k
    · rw [if_pos hj]
      by_cases hxq : x = q
      · rw [if_neg (fun h => hne (h.2.symm.trans hxq)), if_pos ⟨hj, hxq⟩, if_pos hxq]
      · rw [if_neg hxq, if_neg (fun h : j = k ∧ x = q => hxq h.2)]
        by_cases hxu : x = u
        · rw [if_pos ⟨hj, hxu⟩, if_pos hxu]
        · rw [if_neg (fun h : j = k ∧ x = u => hxu h.2), if_neg hxu]
    · rw [if_neg hj, if_neg (fun h : j = k ∧ x = u => hj h.1),
        if_neg (fun h : j = k ∧ x = q => hj h.1)]

/-- **Linking on the levels `0` to `k`.**  On each of them `q` takes over the successor of
`u j`, and becomes that node's successor. -/
theorem link_spec {q : Nat} {update : List Nat} {u : Nat → Nat} : ∀ (k : Nat) (s : SkipList),
    (∀ j ≤ k, update[j]? = some (u j) ∧ u j ≠ q ∧ (∃ n, s.forwardOf j (u j) = some n) ∧
      ∃ r, s.forwardOf j q = some r) →
    ∃ s', link q update k s = some s' ∧ SameObjects s s' ∧
      ∀ j x, s'.forwardOf j x = if j ≤ k then
        (if x = q then s.forwardOf j (u j) else if x = u j then some q else s.forwardOf j x)
      else s.forwardOf j x
  | 0, s, h => by
    obtain ⟨hu, hne, ⟨n, hn⟩, r, hr⟩ := h 0 (Nat.le_refl 0)
    obtain ⟨s', hs', hsame, hfwd⟩ := linkAt_spec hu hne hn hr
    refine ⟨s', hs', hsame, ?_⟩
    intro j x
    rw [hfwd]
    by_cases hj : j = 0
    · rw [if_pos hj, if_pos (Nat.le_of_eq hj), hj, hn]
    · rw [if_neg hj, if_neg (by omega)]
  | k + 1, s, h => by
    obtain ⟨hu, hne, ⟨n, hn⟩, r, hr⟩ := h (k + 1) (Nat.le_refl _)
    obtain ⟨s₁, hs₁, hsame₁, hfwd₁⟩ := linkAt_spec hu hne hn hr
    have hbelow : ∀ j ≤ k, ∀ x, s₁.forwardOf j x = s.forwardOf j x := by
      intro j hj x
      rw [hfwd₁, if_neg (by omega)]
    obtain ⟨s₂, hs₂, hsame₂, hfwd₂⟩ := link_spec (u := u) k s₁ (by
      intro j hj
      obtain ⟨hu', hne', hn', hr'⟩ := h j (by omega)
      rw [hbelow j hj, hbelow j hj]
      exact ⟨hu', hne', hn', hr'⟩)
    refine ⟨s₂, by rw [link, hs₁, Option.bind_some, hs₂], hsame₁.trans hsame₂, ?_⟩
    intro j x
    rw [hfwd₂]
    by_cases hj : j ≤ k
    · rw [if_pos hj, if_pos (show j ≤ k + 1 by omega), hbelow j hj, hbelow j hj]
    · rw [if_neg hj, hfwd₁]
      by_cases hj' : j = k + 1
      · rw [if_pos hj', if_pos (show j ≤ k + 1 by omega), hj', hn]
      · rw [if_neg hj', if_neg (show ¬ j ≤ k + 1 by omega)]

/-- A new node has a forward pointer for each of its levels; nothing else changes. -/
theorem allocate_spec (s : SkipList) (pValue : InstObject) (k : Nat) :
    (s.allocate pValue k).valueOf s.free = some pValue ∧
      (∀ j ≤ k, (s.allocate pValue k).forwardOf j s.free = some nullPtr) ∧
      (∀ x, x ≠ s.free → (s.allocate pValue k).valueOf x = s.valueOf x) ∧
      ∀ j x, x ≠ s.free → (s.allocate pValue k).forwardOf j x = s.forwardOf j x := by
  refine ⟨?_, ?_, ?_, ?_⟩
  · simp [valueOf, allocate]
  · intro j hj
    simp only [forwardOf, allocate, Function.update_self, Option.bind_some,
      List.getElem?_replicate]
    rw [if_pos (by omega)]
  · intro x hx
    simp only [valueOf, allocate, Function.update_of_ne hx]
  · intro j x hx
    simp only [forwardOf, allocate, Function.update_of_ne hx]

/-! ## 3. The invariant -/

/-- **The invariant of a skip list** with the nodes `L k` on level `k` and their objects
`val`. -/
structure Inv (s : SkipList) (L : Nat → List Nat) (val : Nat → InstObject) : Prop where
  path : ∀ k ≤ maxLevel, Path (s.forwardOf k) headPtr (L k) nilPtr
  sub : ∀ k, (L (k + 1)).Sublist (L k)
  above : ∀ k, s.level < k → L k = []
  level_le : s.level ≤ maxLevel
  value : ∀ p ∈ L 0, s.valueOf p = some (val p)
  key_lt : ∀ p ∈ L 0, (val p).first < nilKey
  sorted : (L 0).Pairwise fun a b => Ordered (val a) (val b)
  nodup : (L 0).Nodup
  allocated : ∀ p ∈ L 0, headPtr < p ∧ p < s.free
  count : (L 0).length + 3 = s.free
  nil_value : s.valueOf nilPtr = some ⟨0, nilKey⟩

/-- A new skip list has no nodes on any level. -/
theorem inv_new : Inv new (fun _ => []) fun _ => ⟨0, 0⟩ where
  path := by
    intro k hk
    have : k < maxLevel + 1 := by omega
    simp [Linked.Path, forwardOf, new, nilPtr, headPtr, this]
  sub := fun _ => List.Sublist.refl _
  above := fun _ _ => rfl
  level_le := Nat.zero_le _
  value := by simp
  key_lt := by simp
  sorted := List.Pairwise.nil
  nodup := List.nodup_nil
  allocated := by simp
  count := rfl
  nil_value := rfl

section Levels

variable {s : SkipList} {L : Nat → List Nat} {val : Nat → InstObject} {test : InstObject → Bool}

/-- The nodes of a list whose objects pass the test, and the others. -/
def before (val : Nat → InstObject) (test : InstObject → Bool) (l : List Nat) : List Nat :=
  l.filter fun p => test (val p)

def after (val : Nat → InstObject) (test : InstObject → Bool) (l : List Nat) : List Nat :=
  l.filter fun p => !test (val p)

theorem mem_before {l : List Nat} {p : Nat} :
    p ∈ before val test l ↔ p ∈ l ∧ test (val p) = true := List.mem_filter

theorem mem_after {l : List Nat} {p : Nat} :
    p ∈ after val test l ↔ p ∈ l ∧ test (val p) = false := by
  rw [after, List.mem_filter, Bool.not_eq_true']

/-- Every level is a sublist of level `0`. -/
theorem Inv.sub_zero (h : Inv s L val) : ∀ k, (L k).Sublist (L 0)
  | 0 => List.Sublist.refl _
  | k + 1 => (h.sub k).trans (h.sub_zero k)

/-- On every level the nodes that pass the test come first. -/
theorem Inv.split (h : Inv s L val) (ht : Test test) (k : Nat) :
    L k = before val test (L k) ++ after val test (L k) :=
  filter_append_filter_not (fun a b => ht.down (val a) (val b)) (h.sorted.sublist (h.sub_zero k))

/-- The nodes of a level are few enough for the arena's size to be fuel. -/
theorem Inv.length_lt (h : Inv s L val) (k : Nat) : (L k).length < s.free := by
  have h₁ := (h.sub_zero k).length_le
  have h₂ := h.count
  omega

/-- The walk along one level stops behind the nodes that pass the test. -/
theorem scan_of_path {k : Nat} {ys : List Nat} {b : Nat} {v : InstObject}
    (hv : s.valueOf (ys.headD b) = some v) (hstop : test v = false) :
    ∀ (xs : List Nat) (fuel : Nat) (p : Nat), Path (s.forwardOf k) p (xs ++ ys) b →
      xs.length < fuel → (∀ x ∈ xs, s.valueOf x = some (val x) ∧ test (val x) = true) →
      s.scan test k fuel p = some (xs.getLastD p, ys.headD b)
  | [], fuel + 1, p, hpath, _, _ => by
    have hnext := hpath.next_eq
    rw [List.nil_append] at hnext
    rw [scan, hnext, Option.bind_some, hv, Option.bind_some, hstop]
    rfl
  | x :: xs, fuel + 1, p, hpath, hfuel, hxs => by
    obtain ⟨hval, htest⟩ := hxs x List.mem_cons_self
    rw [scan, hpath.1, Option.bind_some, hval, Option.bind_some, if_pos htest,
      List.getLastD_cons]
    exact scan_of_path hv hstop xs fuel x hpath.2 (by simpa using hfuel)
      fun y hy => hxs y (List.mem_cons_of_mem x hy)

theorem getLastD_append_cons (us xs : List Nat) (p a : Nat) :
    (us ++ p :: xs).getLastD a = xs.getLastD p := by
  induction us generalizing a with
  | nil => rw [List.nil_append, List.getLastD_cons]
  | cons u us ih => rw [List.cons_append, List.getLastD_cons, ih]

/-- **The inner loop**, from any node that passes the test, and from the head. -/
theorem Inv.scan (h : Inv s L val) (ht : Test test) {k : Nat} (hk : k ≤ maxLevel) {p : Nat}
    (hp : p ∈ headPtr :: before val test (L k)) :
    s.scan test k s.free p = some ((before val test (L k)).getLastD headPtr,
      (after val test (L k)).headD nilPtr) := by
  have hpath := h.path k hk
  rw [h.split ht k] at hpath
  have hlen : (before val test (L k)).length < s.free :=
    Nat.lt_of_le_of_lt (List.length_filter_le _ _) (h.length_lt k)
  have hpass : ∀ x ∈ before val test (L k), s.valueOf x = some (val x) ∧ test (val x) = true := by
    intro x hx
    obtain ⟨hmem, htest⟩ := mem_before.mp hx
    exact ⟨h.value x ((h.sub_zero k).subset hmem), htest⟩
  obtain ⟨v, hv, hstop⟩ : ∃ v, s.valueOf ((after val test (L k)).headD nilPtr) = some v ∧
      test v = false := by
    cases hafter : after val test (L k) with
    | nil => exact ⟨_, h.nil_value, ht.nil⟩
    | cons y ys =>
      obtain ⟨hmem, htest⟩ := mem_after.mp (hafter ▸ List.mem_cons_self : y ∈ after val test (L k))
      exact ⟨val y, h.value y ((h.sub_zero k).subset hmem), htest⟩
  rcases List.mem_cons.mp hp with rfl | hp
  · exact scan_of_path hv hstop _ _ _ hpath hlen hpass
  · obtain ⟨us, xs, hsplit⟩ := List.append_of_mem hp
    rw [hsplit] at hpath hlen hpass ⊢
    rw [List.append_assoc, List.cons_append, path_append_cons] at hpath
    rw [getLastD_append_cons]
    have hlen' : xs.length < s.free := by
      rw [List.length_append, List.length_cons] at hlen
      omega
    exact scan_of_path hv hstop xs s.free p hpath.2 hlen'
      fun x hx => hpass x (List.mem_append_right us (List.mem_cons_of_mem p hx))

/-- Where the walk on one level ends, the walk on the level below can start. -/
theorem Inv.descend (h : Inv s L val) (k : Nat) :
    (before val test (L (k + 1))).getLastD headPtr ∈ headPtr :: before val test (L k) := by
  rw [List.getLastD_eq_getLast?]
  cases hlast : (before val test (L (k + 1))).getLast? with
  | none => exact List.mem_cons_self
  | some p =>
    have hsub := (h.sub k).filter fun p => test (val p)
    exact List.mem_cons_of_mem headPtr (hsub.subset (List.mem_of_getLast? hlast))

/-- **The first loop of `insert`** finds, for each level, the last node that passes the
test. -/
theorem Inv.updates (h : Inv s L val) (ht : Test test) : ∀ (k : Nat) (p : Nat), k ≤ maxLevel →
    p ∈ headPtr :: before val test (L k) →
      s.updates test k p
        = some ((List.range (k + 1)).map fun j => (before val test (L j)).getLastD headPtr)
  | 0, p, hk, hp => by
    rw [SkipList.updates, h.scan ht hk hp]
    rfl
  | k + 1, p, hk, hp => by
    rw [SkipList.updates, h.scan ht hk hp, Option.bind_some,
      h.updates ht k _ (by omega) (h.descend k), Option.map_some, List.range_succ (n := k + 1),
      List.map_append]
    rfl

end Levels

/-! ## 4. `insert` -/

section Insert

variable {s : SkipList} {L : Nat → List Nat} {val : Nat → InstObject}

/-- The levels after `q` was inserted on those up to `k`. -/
def insertLevels (L : Nat → List Nat) (val : Nat → InstObject) (test : InstObject → Bool)
    (q : Nat) (k j : Nat) : List Nat :=
  if j ≤ k then before val test (L j) ++ q :: after val test (L j) else L j

/-- **Linking keeps the invariant.**  `s₁` is the state with the new node allocated, and
possibly a raised level; `update` has the last smaller node of each level up to `k`. -/
theorem Inv.link {pValue : InstObject} {k lvl : Nat} (h : Inv s L val)
    (hkey : pValue.first < nilKey) (hk : k ≤ lvl) (hlvl : s.level ≤ lvl) (hmax : lvl ≤ maxLevel)
    (update : List Nat) (hupdate : ∀ j ≤ k, update[j]? =
      some ((before val (cmpSkipListNode pValue.first pValue) (L j)).getLastD headPtr)) :
    ∃ s' val', SkipList.link s.free update k ({ s with level := lvl }.allocate pValue k) = some s' ∧
      Inv s' (insertLevels L val (cmpSkipListNode pValue.first pValue) s.free k) val' ∧
      ((insertLevels L val (cmpSkipListNode pValue.first pValue) s.free k 0).map val').Perm
        (pValue :: (L 0).map val) := by
  have ht := test_cmpSkipListNode hkey
  obtain ⟨hnew, hfwdnew, hvalue, hfwd⟩ := allocate_spec { s with level := lvl } pValue k
  have hcount := h.count
  have hfresh : ∀ j, s.free ∉ headPtr :: L j := by
    intro j hmem
    rcases List.mem_cons.mp hmem with heq | hmem
    · simp only [headPtr] at heq
      omega
    · have := (h.allocated _ ((h.sub_zero j).subset hmem)).2
      omega
  have hnodup : ∀ j, (headPtr :: L j).Nodup := by
    intro j
    refine List.nodup_cons.mpr ⟨fun hmem => ?_, h.nodup.sublist (h.sub_zero j)⟩
    exact absurd (h.allocated _ ((h.sub_zero j).subset hmem)).1 (Nat.lt_irrefl _)
  -- the paths are still there after the allocation
  have hpath : ∀ j ≤ maxLevel,
      Path (({ s with level := lvl }.allocate pValue k).forwardOf j) headPtr (L j) nilPtr := by
    intro j hj
    refine (h.path j hj).congr fun y hy => hfwd j y ?_
    rintro rfl
    exact hfresh j hy
  have hlast : ∀ j, (before val (cmpSkipListNode pValue.first pValue) (L j)).getLastD headPtr
      ∈ headPtr :: L j := by
    intro j
    rw [List.getLastD_eq_getLast?]
    cases hl : (before val (cmpSkipListNode pValue.first pValue) (L j)).getLast? with
    | none => exact List.mem_cons_self
    | some p => exact List.mem_cons_of_mem _ (mem_before.mp (List.mem_of_getLast? hl)).1
  have hne : ∀ j, (before val (cmpSkipListNode pValue.first pValue) (L j)).getLastD headPtr
      ≠ s.free := fun j heq => hfresh j (heq ▸ hlast j)
  have hsplit := fun j => h.split ht j
  obtain ⟨s', hs', hsame, hfwd'⟩ := link_spec
    (u := fun j => (before val (cmpSkipListNode pValue.first pValue) (L j)).getLastD headPtr)
    k ({ s with level := lvl }.allocate pValue k) (by
      intro j hj
      refine ⟨hupdate j hj, hne j, ?_, _, hfwdnew j hj⟩
      have hp := hpath j (by omega)
      rw [hsplit j] at hp
      exact ⟨_, hp.from_last.next_eq⟩)
  have hval : ∀ p ∈ L 0, Function.update val s.free pValue p = val p := by
    intro p hp
    refine Function.update_of_ne ?_ pValue val
    rintro rfl
    exact hfresh 0 (List.mem_cons_of_mem _ hp)
  refine ⟨s', Function.update val s.free pValue, hs', ?_, ?_⟩
  · refine
      { path := ?_, sub := ?_, above := ?_, level_le := ?_, value := ?_, key_lt := ?_, sorted := ?_,
        nodup := ?_, allocated := ?_, count := ?_, nil_value := ?_ }
    · intro j hj
      have hp := hpath j hj
      unfold insertLevels
      by_cases hjk : j ≤ k
      · rw [if_pos hjk]
        have hnd := hnodup j
        have hfr := hfresh j
        rw [hsplit j] at hp hnd hfr
        refine hp.insert hnd hfr ?_ ?_ ?_
        · rw [hfwd', if_pos hjk, if_pos rfl]
        · rw [hfwd', if_pos hjk, if_neg (hne j), if_pos rfl]
        · intro y hyq hyu
          rw [hfwd', if_pos hjk, if_neg hyq, if_neg hyu]
      · rw [if_neg hjk]
        refine hp.congr fun y _ => ?_
        rw [hfwd', if_neg hjk]
    · intro j
      unfold insertLevels
      have hb := (h.sub j).filter fun p => cmpSkipListNode pValue.first pValue (val p)
      have ha := (h.sub j).filter fun p => !cmpSkipListNode pValue.first pValue (val p)
      by_cases hj : j + 1 ≤ k
      · rw [if_pos hj, if_pos (by omega)]
        exact hb.append (ha.cons_cons _)
      · rw [if_neg hj]
        split
        · rw [hsplit (j + 1)]
          exact hb.append (ha.cons _)
        · exact h.sub j
    · intro j hj
      rw [hsame.level] at hj
      simp only [allocate] at hj
      unfold insertLevels
      rw [if_neg (by omega)]
      exact h.above j (by omega)
    · rw [hsame.level]
      exact hmax
    · intro p hp
      rw [insertLevels, if_pos (Nat.zero_le k), List.mem_append, List.mem_cons] at hp
      rw [hsame.value]
      by_cases hpq : p = s.free
      · rw [hpq, Function.update_self]
        exact hnew
      · rw [Function.update_of_ne hpq, hvalue p hpq]
        refine h.value p ?_
        rcases hp with hp | rfl | hp
        · exact (mem_before.mp hp).1
        · exact absurd rfl hpq
        · exact (mem_after.mp hp).1
    · intro p hp
      rw [insertLevels, if_pos (Nat.zero_le k), List.mem_append, List.mem_cons] at hp
      by_cases hpq : p = s.free
      · rw [hpq, Function.update_self]
        exact hkey
      · rw [Function.update_of_ne hpq]
        refine h.key_lt p ?_
        rcases hp with hp | rfl | hp
        · exact (mem_before.mp hp).1
        · exact absurd rfl hpq
        · exact (mem_after.mp hp).1
    · rw [insertLevels, if_pos (Nat.zero_le k)]
      have hsorted := h.sorted
      rw [hsplit 0, List.pairwise_append] at hsorted
      obtain ⟨h₁, h₂, h₃⟩ := hsorted
      have hbval : ∀ p ∈ before val (cmpSkipListNode pValue.first pValue) (L 0),
          Function.update val s.free pValue p = val p := fun p hp => hval p (mem_before.mp hp).1
      have haval : ∀ p ∈ after val (cmpSkipListNode pValue.first pValue) (L 0),
          Function.update val s.free pValue p = val p := fun p hp => hval p (mem_after.mp hp).1
      refine List.pairwise_append.mpr ⟨?_, List.pairwise_cons.mpr ⟨?_, ?_⟩, ?_⟩
      · exact h₁.imp_of_mem fun ha hb hab => by rwa [hbval _ ha, hbval _ hb]
      · intro b hb
        rw [haval b hb, Function.update_self]
        have hnot := (mem_after.mp hb).2
        rw [Bool.eq_false_iff, ne_eq, cmpSkipListNode_iff] at hnot
        unfold Ordered
        omega
      · exact h₂.imp_of_mem fun ha hb hab => by rwa [haval _ ha, haval _ hb]
      · intro a ha b hb
        rw [hbval a ha]
        rcases List.mem_cons.mp hb with rfl | hb
        · rw [Function.update_self]
          have hlt := cmpSkipListNode_iff.mp (mem_before.mp ha).2
          unfold Ordered
          omega
        · rw [haval b hb]
          exact h₃ a ha b hb
    · rw [insertLevels, if_pos (Nat.zero_le k)]
      have hnd := List.nodup_cons.mp (hnodup 0)
      have hfr := hfresh 0
      rw [hsplit 0] at hnd hfr
      exact List.nodup_middle.mpr (List.nodup_cons.mpr
        ⟨fun hmem => hfr (List.mem_cons_of_mem _ hmem), hnd.2⟩)
    · intro p hp
      rw [insertLevels, if_pos (Nat.zero_le k), List.mem_append, List.mem_cons] at hp
      rw [hsame.free]
      simp only [allocate]
      rcases hp with hp | rfl | hp
      · have := h.allocated p (mem_before.mp hp).1
        omega
      · simp only [headPtr]
        omega
      · have := h.allocated p (mem_after.mp hp).1
        omega
    · rw [insertLevels, if_pos (Nat.zero_le k), hsame.free]
      have hlen := congrArg List.length (hsplit 0)
      rw [List.length_append] at hlen
      simp only [List.length_append, List.length_cons, allocate]
      omega
    · rw [hsame.value, hvalue nilPtr (by simp only [nilPtr]; omega)]
      exact h.nil_value
  · rw [insertLevels, if_pos (Nat.zero_le k)]
    refine (List.perm_middle.map _).trans ?_
    rw [List.map_cons, Function.update_self, ← hsplit 0]
    refine List.Perm.of_eq (congrArg _ (List.map_congr_left hval))

/-- **`insert` keeps the invariant**, for every value of `randomLevel()`, and adds one object. -/
theorem Inv.insert (h : Inv s L val) {pValue : InstObject} (hkey : pValue.first < nilKey)
    {randomLevel : Nat} (hrandom : randomLevel ≤ maxLevel) :
    ∃ s' L' val', s.insert pValue.first pValue randomLevel = some s' ∧ Inv s' L' val' ∧
      ((L' 0).map val').Perm (pValue :: (L 0).map val) := by
  have ht := test_cmpSkipListNode hkey
  have hupdates := h.updates ht s.level headPtr h.level_le List.mem_cons_self
  have hlevel := h.level_le
  rw [SkipList.insert, hupdates, Option.bind_some]
  split
  · rename_i hraise
    obtain ⟨s', val', hs', hinv, hperm⟩ := h.link hkey (Nat.le_refl (s.level + 1)) (by omega)
      (show s.level + 1 ≤ maxLevel by omega)
      ((List.range (s.level + 1)).map (fun j =>
        (before val (cmpSkipListNode pValue.first pValue) (L j)).getLastD headPtr) ++ [headPtr])
      (by
        intro j hj
        by_cases hj' : j = s.level + 1
        · have hempty : L j = [] := h.above j (by omega)
          rw [hempty, hj', List.getElem?_append_right (by simp)]
          simp [before]
        · rw [List.getElem?_append_left (by simp; omega)]
          simp only [List.getElem?_map]
          rw [List.getElem?_range (by omega)]
          rfl)
    exact ⟨s', _, val', hs', hinv, hperm⟩
  · rename_i hkeep
    obtain ⟨s', val', hs', hinv, hperm⟩ := h.link hkey (show randomLevel ≤ s.level by omega)
      (Nat.le_refl s.level) hlevel
      ((List.range (s.level + 1)).map fun j =>
        (before val (cmpSkipListNode pValue.first pValue) (L j)).getLastD headPtr)
      (by
        intro j hj
        simp only [List.getElem?_map]
        rw [List.getElem?_range (by omega)]
        rfl)
    exact ⟨s', _, val', hs', hinv, hperm⟩

end Insert

/-- **Every sequence of insertions** succeeds and ends in a list with the invariant, which
holds exactly the inserted objects. -/
theorem inv_insertAll (ins : List (InstObject × Nat)) (hkey : ∀ i ∈ ins, i.1.first < nilKey)
    (hrandom : ∀ i ∈ ins, i.2 ≤ maxLevel) :
    ∃ s L val, insertAll ins = some s ∧ Inv s L val ∧
      ((L 0).map val).Perm (ins.map fun i => i.1) := by
  have key : ∀ (ins : List (InstObject × Nat)) (s : SkipList) (L : Nat → List Nat)
      (val : Nat → InstObject), Inv s L val → (∀ i ∈ ins, i.1.first < nilKey) →
      (∀ i ∈ ins, i.2 ≤ maxLevel) →
      ∃ s' L' val', Machine.run (fun s (i : InstObject × Nat) => s.insert i.1.first i.1 i.2) s ins
          = some s' ∧ Inv s' L' val' ∧
        ((L' 0).map val').Perm ((ins.map fun i => i.1) ++ (L 0).map val) := by
    intro ins
    induction ins with
    | nil =>
      intro s L val h _ _
      exact ⟨s, L, val, rfl, h, List.Perm.refl _⟩
    | cons i ins ih =>
      intro s L val h hkey hrandom
      obtain ⟨s₁, L₁, val₁, hs₁, h₁, hperm₁⟩ := h.insert (hkey i List.mem_cons_self)
        (hrandom i List.mem_cons_self)
      obtain ⟨s₂, L₂, val₂, hs₂, h₂, hperm₂⟩ := ih s₁ L₁ val₁ h₁
        (fun j hj => hkey j (List.mem_cons_of_mem i hj))
        (fun j hj => hrandom j (List.mem_cons_of_mem i hj))
      refine ⟨s₂, L₂, val₂, by rw [Machine.run_cons, hs₁]; exact hs₂, h₂, hperm₂.trans ?_⟩
      rw [List.map_cons, List.cons_append]
      exact (hperm₁.append_left _).trans List.perm_middle
  obtain ⟨s, L, val, hs, h, hperm⟩ := key ins new _ _ inv_new hkey hrandom
  exact ⟨s, L, val, hs, h, by simpa using hperm⟩

end SkipList

end Emdros
