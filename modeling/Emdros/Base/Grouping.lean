/-
# Grouping by a key in an ordered map

The loop `m[key(x)].push_back(x)` over a list, and the walk over the map that follows it: a
stable sort by the key.  `operator[]` of a `std::map` first inserts a default value under a
key that is not there, so an assignment through it is `assign`.  `collect` is the loop for any
update of the value, and `mem_collect` says what it leaves under each key: the update folded
over the elements with that key.  For `group` that is their list, so the walk visits every
element once, by key, and elements with one key in the order of the list
(`pairwise_groups`, `pairwise_groupsDown`).

Nothing here is about a particular program.
-/
import Emdros.Base.OrdMap

namespace OrdMap

variable {κ ν α : Type*} [LinearOrder κ]

/-! ## 1. Lookup after an insertion -/

theorem find_insertEntry {k : κ} {v : ν} (k' : κ) : ∀ {l : List (κ × ν)},
    l.Pairwise (fun a b => a.1 < b.1) →
      (insertEntry k v l).find? (fun e => decide (e.1 = k'))
        = if k = k' then some (((l.find? fun e => decide (e.1 = k)).getD (k, v)))
          else l.find? fun e => decide (e.1 = k')
  | [], _ => by
    by_cases h : k = k' <;> simp [insertEntry, h]
  | e :: rest, hs => by
    obtain ⟨he, hrest⟩ := List.pairwise_cons.mp hs
    have ih := find_insertEntry k' hrest (k := k) (v := v)
    rcases lt_trichotomy k e.1 with hlt | heq | hgt
    · have hnone : (e :: rest).find? (fun e => decide (e.1 = k)) = none := by
        refine List.find?_eq_none.mpr fun a ha => ?_
        rcases List.mem_cons.mp ha with rfl | ha
        · simpa using hlt.ne'
        · simpa using (hlt.trans (he a ha)).ne'
      rw [insertEntry, if_pos hlt, hnone]
      by_cases h : k = k' <;> simp [List.find?_cons, h]
    · rw [insertEntry, if_neg heq.not_lt, if_pos heq]
      by_cases h : k = k'
      · subst h
        simp [heq]
      · simp [h]
    · rw [insertEntry, if_neg hgt.not_gt, if_neg hgt.ne']
      by_cases hk : e.1 = k'
      · have hne : k ≠ k' := fun h => hgt.ne (hk.trans h.symm)
        simp [hk, hne]
      · rw [List.find?_cons_of_neg (by simpa using hk), ih,
          List.find?_cons_of_neg (by simpa using hgt.ne),
          List.find?_cons_of_neg (by simpa using hk)]

/-- **Lookup after `insert`**, which does nothing when the key is there. -/
theorem value_insert (m : OrdMap κ ν) (k : κ) (v : ν) (k' : κ) :
    (m.insert k v).value (some k')
      = if k = k' then some ((m.value (some k)).getD v) else m.value (some k') := by
  show ((insertEntry k v m.entries).find? fun e => decide (e.1 = k')).map (·.2) = _
  rw [find_insertEntry k' m.sorted]
  split
  · show _ = some (((m.entries.find? fun e => decide (e.1 = k)).map (·.2)).getD v)
    cases m.entries.find? fun e => decide (e.1 = k) <;> rfl
  · rfl

/-- An entry is what its key looks up. -/
theorem mem_entries_iff {m : OrdMap κ ν} {k : κ} {v : ν} :
    (k, v) ∈ m.entries ↔ m.value (some k) = some v := by
  constructor
  · intro h
    obtain ⟨pre, post, hsplit⟩ := List.append_of_mem h
    exact value_at hsplit
  · intro h
    obtain ⟨e, he, hv⟩ := Option.map_eq_some_iff.mp (show
      (m.entries.find? fun e => decide (e.1 = k)).map (·.2) = some v from h)
    have hk : e.1 = k := by simpa using List.find?_some he
    rw [← hk, ← hv]
    exact List.mem_of_find?_eq_some he

theorem value_modify (m : OrdMap κ ν) (k : κ) (f : ν → ν) (k' : κ) :
    (m.modify k f).value (some k')
      = if k = k' then (m.value (some k)).map f else m.value (some k') := by
  show ((m.entries.map fun e => if e.1 = k then (e.1, f e.2) else e).find?
    fun e => decide (e.1 = k')).map (·.2) = _
  have key : ∀ l : List (κ × ν),
      ((l.map fun e => if e.1 = k then (e.1, f e.2) else e).find?
        fun e => decide (e.1 = k')).map (·.2)
        = if k = k' then ((l.find? fun e => decide (e.1 = k)).map (·.2)).map f
          else (l.find? fun e => decide (e.1 = k')).map (·.2) := by
    intro l
    induction l with
    | nil => simp
    | cons e rest ih =>
      by_cases hk : k = k'
      · subst hk
        rw [if_pos rfl] at ih ⊢
        by_cases he : e.1 = k
        · simp [he]
        · simpa [List.find?_cons, he] using ih
      · rw [if_neg hk] at ih ⊢
        by_cases he : e.1 = k
        · have he' : e.1 ≠ k' := fun h => hk (he.symm.trans h)
          simpa [List.find?_cons, he, hk] using ih
        · by_cases he' : e.1 = k'
          · have hk' : k' ≠ k := fun h => hk h.symm
            simp [he', hk']
          · simpa [List.find?_cons, he, he'] using ih
  exact key m.entries

/-! ## 2. Assignment through `operator[]` -/

/-- `m[k] = f(m[k])`, where a key that is not there is inserted with the default `d`. -/
def assign (m : OrdMap κ ν) (k : κ) (d : ν) (f : ν → ν) : OrdMap κ ν := (m.insert k d).modify k f

theorem value_assign (m : OrdMap κ ν) (k : κ) (d : ν) (f : ν → ν) (k' : κ) :
    (m.assign k d f).value (some k')
      = if k = k' then some (f ((m.value (some k)).getD d)) else m.value (some k') := by
  rw [assign, value_modify, value_insert, value_insert]
  by_cases h : k = k' <;> simp [h]

/-- The loop `m[key(x)] = upd(m[key(x)], x)`. -/
def collectInto (key : α → κ) (d : ν) (upd : ν → α → ν) (m : OrdMap κ ν) (l : List α) :
    OrdMap κ ν :=
  l.foldl (fun m x => m.assign (key x) d fun v => upd v x) m

def collect (key : α → κ) (d : ν) (upd : ν → α → ν) (l : List α) : OrdMap κ ν :=
  collectInto key d upd empty l

@[simp] theorem value_empty (k : κ) : (empty : OrdMap κ ν).value (some k) = none := rfl

/-- **What the loop leaves under a key.** -/
theorem value_collect (key : α → κ) (d : ν) (upd : ν → α → ν) (l : List α) (k : κ) :
    (collect key d upd l).value (some k)
      = if l.filter (fun x => decide (key x = k)) = [] then none
        else some ((l.filter fun x => decide (key x = k)).foldl upd d) := by
  induction l using List.reverseRecOn with
  | nil => rfl
  | append_singleton l x ih =>
    have hstep : collect key d upd (l ++ [x])
        = (collect key d upd l).assign (key x) d fun v => upd v x := by
      simp [collect, collectInto, List.foldl_append]
    rw [hstep, value_assign, List.filter_append]
    by_cases hx : key x = k
    · rw [if_pos hx, hx, ih]
      by_cases hnil : l.filter (fun x => decide (key x = k)) = []
      · simp [hnil, hx]
      · simp [hnil, hx, List.foldl_append]
    · rw [if_neg hx, ih]
      simp [hx]

theorem mem_collect {key : α → κ} {d : ν} {upd : ν → α → ν} {l : List α} {k : κ} {v : ν} :
    (k, v) ∈ (collect key d upd l).entries ↔
      (∃ x ∈ l, key x = k) ∧ v = (l.filter fun x => decide (key x = k)).foldl upd d := by
  rw [mem_entries_iff, value_collect]
  by_cases hnil : l.filter (fun x => decide (key x = k)) = []
  · rw [if_pos hnil]
    constructor
    · intro h
      cases h
    · rintro ⟨⟨x, hx, hk⟩, -⟩
      simpa [hk] using List.filter_eq_nil_iff.mp hnil x hx
  · rw [if_neg hnil, Option.some.injEq]
    have hex : ∃ x ∈ l, key x = k := by
      obtain ⟨x, hx⟩ := List.exists_mem_of_ne_nil _ hnil
      exact ⟨x, List.mem_of_mem_filter hx, by simpa using (List.mem_filter.mp hx).2⟩
    exact ⟨fun h => ⟨hex, h.symm⟩, fun h => h.2.symm⟩

/-! ## 3. Groups -/

/-- The loop `m[key(x)].push_back(x)`. -/
def group (key : α → κ) (l : List α) : OrdMap κ (List α) :=
  collect key [] (fun v x => v ++ [x]) l

theorem foldl_push (l acc : List α) : l.foldl (fun v x => v ++ [x]) acc = acc ++ l := by
  induction l generalizing acc with
  | nil => simp
  | cons x l ih => simp [ih]

theorem mem_group {key : α → κ} {l : List α} {k : κ} {v : List α} :
    (k, v) ∈ (group key l).entries ↔
      (∃ x ∈ l, key x = k) ∧ v = l.filter fun x => decide (key x = k) := by
  rw [group, mem_collect, foldl_push, List.nil_append]

/-- What is found under a key. -/
theorem value_group_getD (key : α → κ) (l : List α) (k : κ) :
    ((group key l).value (some k)).getD [] = l.filter fun x => decide (key x = k) := by
  rw [group, value_collect, foldl_push, List.nil_append]
  split
  · rename_i h
    rw [h]
    rfl
  · rfl

/-- One more turn of the loop. -/
theorem group_append_singleton (key : α → κ) (l : List α) (x : α) :
    group key (l ++ [x]) = (group key l).assign (key x) [] fun v => v ++ [x] := by
  simp [group, collect, collectInto, List.foldl_append]

/-- The walk over a map whose values give lists. -/
def walk (f : ν → List α) (m : OrdMap κ ν) : List α := m.entries.flatMap fun e => f e.2

/-- The walk from `rbegin()` to `rend()`. -/
def walkDown (f : ν → List α) (m : OrdMap κ ν) : List α :=
  m.entries.reverse.flatMap fun e => f e.2

section Walks

variable {key : α → κ} {d : ν} {upd : ν → α → ν} {f : ν → List α} {l : List α}

/-- Both walks visit the elements of the list when the values give those of their key. -/
theorem mem_walk (hf : ∀ g : List α, ∀ x, x ∈ f (g.foldl upd d) ↔ x ∈ g) {x : α} :
    x ∈ walk f (collect key d upd l) ↔ x ∈ l := by
  rw [walk, List.mem_flatMap]
  constructor
  · rintro ⟨⟨k, v⟩, he, hx⟩
    rw [(mem_collect.mp he).2] at hx
    exact List.mem_of_mem_filter ((hf _ x).mp hx)
  · intro hx
    refine ⟨(key x, _), mem_collect.mpr ⟨⟨x, hx, rfl⟩, rfl⟩, (hf _ x).mpr ?_⟩
    exact List.mem_filter.mpr ⟨hx, by simp⟩

theorem mem_walkDown (hf : ∀ g : List α, ∀ x, x ∈ f (g.foldl upd d) ↔ x ∈ g) {x : α} :
    x ∈ walkDown f (collect key d upd l) ↔ x ∈ l := by
  rw [← @mem_walk _ _ _ _ key _ _ _ l hf, walk, walkDown]
  simp only [List.mem_flatMap, List.mem_reverse]

/-- What an entry of the loop's map gives, element by element. -/
theorem key_of_mem_entry (hf : ∀ g : List α, ∀ x, x ∈ f (g.foldl upd d) ↔ x ∈ g)
    {e : κ × ν} (he : e ∈ (collect key d upd l).entries) {x : α} (hx : x ∈ f e.2) :
    key x = e.1 := by
  obtain ⟨k, v⟩ := e
  rw [(mem_collect.mp he).2] at hx
  simpa using (List.mem_filter.mp ((hf _ x).mp hx)).2

/-- **The walk goes by key.**  Where `S` orders the elements of one key in each value, the walk
is ordered by the key first and then by `S`. -/
theorem pairwise_walk {S : α → α → Prop}
    (hf : ∀ g : List α, ∀ x, x ∈ f (g.foldl upd d) ↔ x ∈ g)
    (hS : ∀ k, (f ((l.filter fun x => decide (key x = k)).foldl upd d)).Pairwise S) :
    (walk f (collect key d upd l)).Pairwise
      fun x y => key x < key y ∨ key x = key y ∧ S x y := by
  refine List.pairwise_flatMap.mpr ⟨fun e he => ?_, ?_⟩
  · have hval := (mem_collect.mp (show (e.1, e.2) ∈ _ from he)).2
    have hpw := hS e.1
    rw [← hval] at hpw
    refine hpw.imp_of_mem fun hx hy hxy => Or.inr ⟨?_, hxy⟩
    rw [key_of_mem_entry hf he hx, key_of_mem_entry hf he hy]
  · refine (collect key d upd l).sorted.imp_of_mem fun ha hb hab x hx y hy => Or.inl ?_
    rw [key_of_mem_entry hf ha hx, key_of_mem_entry hf hb hy]
    exact hab

theorem pairwise_walkDown {S : α → α → Prop}
    (hf : ∀ g : List α, ∀ x, x ∈ f (g.foldl upd d) ↔ x ∈ g)
    (hS : ∀ k, (f ((l.filter fun x => decide (key x = k)).foldl upd d)).Pairwise S) :
    (walkDown f (collect key d upd l)).Pairwise
      fun x y => key y < key x ∨ key x = key y ∧ S x y := by
  refine List.pairwise_flatMap.mpr ⟨fun e he => ?_, ?_⟩
  · rw [List.mem_reverse] at he
    have hval := (mem_collect.mp (show (e.1, e.2) ∈ _ from he)).2
    have hpw := hS e.1
    rw [← hval] at hpw
    refine hpw.imp_of_mem fun hx hy hxy => Or.inr ⟨?_, hxy⟩
    rw [key_of_mem_entry hf he hx, key_of_mem_entry hf he hy]
  · refine (List.pairwise_reverse.mpr (collect key d upd l).sorted).imp_of_mem
      fun ha hb hab x hx y hy => Or.inl ?_
    rw [List.mem_reverse] at ha hb
    rw [key_of_mem_entry hf ha hx, key_of_mem_entry hf hb hy]
    exact hab

end Walks

/-- The walk over the groups. -/
def groups (key : α → κ) (l : List α) : List α := walk id (group key l)

theorem mem_pushes (g : List α) (x : α) :
    x ∈ id (g.foldl (fun v x => v ++ [x]) []) ↔ x ∈ g := by
  rw [foldl_push, List.nil_append, id]

@[simp] theorem mem_groups {key : α → κ} {l : List α} {x : α} : x ∈ groups key l ↔ x ∈ l :=
  mem_walk mem_pushes

/-- **The groups are a stable sort by the key.** -/
theorem pairwise_groups {key : α → κ} {S : α → α → Prop} {l : List α} (h : l.Pairwise S) :
    (groups key l).Pairwise fun x y => key x < key y ∨ key x = key y ∧ S x y := by
  refine pairwise_walk mem_pushes fun k => ?_
  rw [foldl_push, List.nil_append]
  exact h.filter _

/-! ## 4. Sums over the values -/

section Sums

variable {m : OrdMap κ ν} {k : κ} {v : ν} (g : ν → Nat)

/-- The sum of a measure of the values. -/
def sumValues (m : OrdMap κ ν) : Nat := (m.entries.map fun e => g e.2).sum

theorem sumValues_modify (hm : m.value (some k) = some v) (f : ν → ν) :
    sumValues g (m.modify k f) + g v = sumValues g m + g (f v) := by
  obtain ⟨pre, post, h⟩ := List.append_of_mem (mem_entries_iff.mpr hm)
  have hmod := modify_at h f
  simp only [sumValues, hmod, h, List.map_append, List.map_cons, List.sum_append, List.sum_cons]
  omega

theorem sumValues_insert (hm : m.value (some k) = none) :
    sumValues g (m.insert k v) = sumValues g m + g v := by
  rcases m.split_at_key k with ⟨pre, v', post, h⟩ | ⟨pre, post, h, hpre, hpost⟩
  · rw [value_at h] at hm
    cases hm
  · have hins := insert_between h hpre hpost (v := v)
    simp only [sumValues, hins, h, List.map_append, List.map_cons, List.sum_append,
      List.sum_cons]
    omega

end Sums

end OrdMap
