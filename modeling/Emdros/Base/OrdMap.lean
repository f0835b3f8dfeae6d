/-
# Ordered maps with positional iterators

An ordered associative container in the style of the C++ `std::map`: entries sorted by a
unique key, `upper_bound`, insertion that does nothing when the key is there, erasure at an
iterator.  The map is its list of entries with ascending keys, and an iterator is the key it
stands at, or `none` for the end; this is sound because entries keep their place when others
are inserted or erased.  `value` and `prev` are `none` where the container leaves the access
undefined.

Programs walk such a map with a cursor, so every operation has a lemma for a map split at the
cursor, `m.entries = pre ++ (k, v) :: post`, and `exists_split` produces the split at a key.
-/
import Mathlib

/-- Entries with strictly ascending keys. -/
@[ext]
structure OrdMap (κ ν : Type*) [LinearOrder κ] where
  entries : List (κ × ν)
  sorted : entries.Pairwise fun a b => a.1 < b.1

namespace OrdMap

variable {κ ν : Type*} [LinearOrder κ]

/-! ## 1. Operations -/

def empty : OrdMap κ ν := ⟨[], List.Pairwise.nil⟩

def isEmpty (m : OrdMap κ ν) : Bool := m.entries.isEmpty

def size (m : OrdMap κ ν) : Nat := m.entries.length

/-- The iterator to the first entry. -/
def begin (m : OrdMap κ ν) : Option κ := m.entries.head?.map (·.1)

/-- The value of the first entry, `begin()->second`. -/
def front (m : OrdMap κ ν) : Option ν := m.entries.head?.map (·.2)

/-- The value of the last entry, `rbegin()->second`. -/
def back (m : OrdMap κ ν) : Option ν := m.entries.getLast?.map (·.2)

/-- The iterator to the first entry whose key is greater than `k`. -/
def upperBound (m : OrdMap κ ν) (k : κ) : Option κ :=
  (m.entries.find? fun e => decide (k < e.1)).map (·.1)

/-- `++it` at the entry with key `k`. -/
def next (m : OrdMap κ ν) (k : κ) : Option κ := m.upperBound k

/-- `--it`: the last entry before the iterator.  `none` is the undefined decrement of
`begin()`. -/
def prev (m : OrdMap κ ν) : Option κ → Option κ
  | none => m.entries.getLast?.map (·.1)
  | some k => (m.entries.filter fun e => decide (e.1 < k)).getLast?.map (·.1)

/-- `it->second`; `none` is the undefined access at the end. -/
def value (m : OrdMap κ ν) (it : Option κ) : Option ν :=
  it.bind fun k => (m.entries.find? fun e => decide (e.1 = k)).map (·.2)

/-- Insertion into a sorted list of entries, which leaves an entry with the key alone. -/
def insertEntry (k : κ) (v : ν) : List (κ × ν) → List (κ × ν)
  | [] => [(k, v)]
  | e :: rest =>
    if k < e.1 then (k, v) :: e :: rest
    else if k = e.1 then e :: rest
    else e :: insertEntry k v rest

theorem key_of_mem_insertEntry {k : κ} {v : ν} : ∀ {l : List (κ × ν)} {e : κ × ν},
    e ∈ insertEntry k v l → e = (k, v) ∨ e ∈ l
  | [], e, he => by
    rw [insertEntry, List.mem_singleton] at he
    exact Or.inl he
  | a :: rest, e, he => by
    simp only [insertEntry] at he
    split at he
    · rcases List.mem_cons.mp he with rfl | he
      · exact Or.inl rfl
      · exact Or.inr he
    · split at he
      · exact Or.inr he
      · rcases List.mem_cons.mp he with rfl | he
        · exact Or.inr List.mem_cons_self
        · rcases key_of_mem_insertEntry he with rfl | he
          · exact Or.inl rfl
          · exact Or.inr (List.mem_cons_of_mem _ he)

theorem sorted_insertEntry {k : κ} {v : ν} : ∀ {l : List (κ × ν)},
    l.Pairwise (fun a b => a.1 < b.1) → (insertEntry k v l).Pairwise fun a b => a.1 < b.1
  | [], _ => List.pairwise_singleton _ _
  | a :: rest, h => by
    obtain ⟨ha, hrest⟩ := List.pairwise_cons.mp h
    simp only [insertEntry]
    split
    · rename_i hlt
      refine List.pairwise_cons.mpr ⟨?_, h⟩
      intro b hb
      rcases List.mem_cons.mp hb with rfl | hb
      · exact hlt
      · exact lt_trans hlt (ha b hb)
    · rename_i hlt
      split
      · exact h
      · rename_i hne
        refine List.pairwise_cons.mpr ⟨?_, sorted_insertEntry hrest⟩
        intro b hb
        rcases key_of_mem_insertEntry hb with rfl | hb
        · exact lt_of_le_of_ne (not_lt.mp hlt) (Ne.symm hne)
        · exact ha b hb

def insert (m : OrdMap κ ν) (k : κ) (v : ν) : OrdMap κ ν :=
  ⟨insertEntry k v m.entries, sorted_insertEntry m.sorted⟩

/-- `erase(it)` at the entry with key `k`. -/
def erase (m : OrdMap κ ν) (k : κ) : OrdMap κ ν :=
  ⟨m.entries.filter fun e => decide (e.1 ≠ k), m.sorted.filter _⟩

/-- `erase(begin(), it)`. -/
def eraseBefore (m : OrdMap κ ν) : Option κ → OrdMap κ ν
  | none => empty
  | some k => ⟨m.entries.filter fun e => decide (k ≤ e.1), m.sorted.filter _⟩

/-- Assignment to (a part of) `it->second` at the entry with key `k`; the key stays. -/
def modify (m : OrdMap κ ν) (k : κ) (f : ν → ν) : OrdMap κ ν :=
  ⟨m.entries.map fun e => if e.1 = k then (e.1, f e.2) else e, by
    refine List.pairwise_map.mpr (m.sorted.imp ?_)
    intro a b hab
    have h : ∀ e : κ × ν, (if e.1 = k then (e.1, f e.2) else e).1 = e.1 := by
      intro e
      split <;> rfl
    rw [h, h]
    exact hab⟩

/-! ## 2. A map split at a cursor -/

section Split

variable {m : OrdMap κ ν} {pre post : List (κ × ν)} {k : κ} {v : ν}

/-- The keys before a position are smaller than those from it on. -/
theorem lt_of_split (h : m.entries = pre ++ post) {a b : κ × ν} (ha : a ∈ pre)
    (hb : b ∈ post) : a.1 < b.1 := by
  have hs := m.sorted
  rw [h] at hs
  exact (List.pairwise_append.mp hs).2.2 a ha b hb

theorem lt_key (h : m.entries = pre ++ (k, v) :: post) {a : κ × ν} (ha : a ∈ pre) : a.1 < k :=
  lt_of_split h ha (List.mem_cons_self (a := (k, v)))

theorem key_lt (h : m.entries = pre ++ (k, v) :: post) {b : κ × ν} (hb : b ∈ post) :
    k < b.1 := by
  have h' : m.entries = (pre ++ [(k, v)]) ++ post := by simpa using h
  exact lt_of_split h' (List.mem_append_right pre (List.mem_singleton.mpr rfl)) hb

/-- The value at the cursor. -/
theorem value_at (h : m.entries = pre ++ (k, v) :: post) : m.value (some k) = some v := by
  have hpre : pre.find? (fun e => decide (e.1 = k)) = none := by
    rw [List.find?_eq_none]
    intro a ha
    simp [ne_of_lt (lt_key h ha)]
  simp [value, h, List.find?_append, hpre]

/-- Moving the cursor on. -/
theorem upperBound_split (h : m.entries = pre ++ post) (hpre : ∀ e ∈ pre, e.1 ≤ k)
    (hpost : ∀ e ∈ post, k < e.1) : m.upperBound k = post.head?.map (·.1) := by
  have hnone : pre.find? (fun e => decide (k < e.1)) = none := by
    rw [List.find?_eq_none]
    intro a ha
    simp [not_lt.mpr (hpre a ha)]
  rw [upperBound, h, List.find?_append, hnone, Option.none_or]
  cases post with
  | nil => rfl
  | cons e post => simp [hpost e List.mem_cons_self]

theorem next_at (h : m.entries = pre ++ (k, v) :: post) :
    m.next k = post.head?.map (·.1) := by
  have h' : m.entries = (pre ++ [(k, v)]) ++ post := by simpa using h
  refine upperBound_split h' ?_ (fun e he => key_lt h he)
  intro e he
  rcases List.mem_append.mp he with he | he
  · exact le_of_lt (lt_key h he)
  · rw [List.mem_singleton.mp he]

/-- Moving the cursor back over the entry before it. -/
theorem prev_split (h : m.entries = (pre ++ [(k, v)]) ++ post) :
    m.prev (post.head?.map (·.1)) = some k := by
  cases post with
  | nil =>
    rw [List.append_nil] at h
    simp [prev, h]
  | cons e post =>
    have hfilter : m.entries.filter (fun a => decide (a.1 < e.1)) = pre ++ [(k, v)] := by
      rw [h, List.filter_append]
      have h₁ : (pre ++ [(k, v)]).filter (fun a => decide (a.1 < e.1)) = pre ++ [(k, v)] := by
        rw [List.filter_eq_self]
        intro a ha
        simpa using lt_of_split h ha List.mem_cons_self
      have h₂ : (e :: post).filter (fun a => decide (a.1 < e.1)) = [] := by
        rw [List.filter_eq_nil_iff]
        intro a ha
        have hs := m.sorted
        rw [h] at hs
        have hs' := (List.pairwise_append.mp hs).2.1
        rcases List.mem_cons.mp ha with rfl | ha
        · simp
        · simpa using le_of_lt ((List.pairwise_cons.mp hs').1 a ha)
      rw [h₁, h₂, List.append_nil]
    simp only [List.head?_cons, Option.map_some, prev]
    rw [hfilter]
    simp

theorem filter_ne_of_forall {l : List (κ × ν)} (h : ∀ e ∈ l, e.1 ≠ k) :
    l.filter (fun e => decide (e.1 ≠ k)) = l := by
  rw [List.filter_eq_self]
  intro e he
  simpa using h e he

/-- Erasing at the cursor. -/
theorem erase_at (h : m.entries = pre ++ (k, v) :: post) :
    (m.erase k).entries = pre ++ post := by
  have h₁ := filter_ne_of_forall fun e he => ne_of_lt (lt_key h he)
  have h₂ := filter_ne_of_forall fun e he => (ne_of_lt (key_lt h he)).symm
  show m.entries.filter (fun e => decide (e.1 ≠ k)) = pre ++ post
  rw [h, List.filter_append, h₁, List.filter_cons_of_neg (by simp), h₂]

/-- Inserting a key between two parts. -/
theorem insert_between (h : m.entries = pre ++ post) (hpre : ∀ e ∈ pre, e.1 < k)
    (hpost : ∀ e ∈ post, k < e.1) : (m.insert k v).entries = pre ++ (k, v) :: post := by
  have key : ∀ pre : List (κ × ν), (∀ e ∈ pre, e.1 < k) →
      insertEntry k v (pre ++ post) = pre ++ (k, v) :: post := by
    intro pre
    induction pre with
    | nil =>
      intro _
      cases post with
      | nil => rfl
      | cons e post => simp [insertEntry, hpost e List.mem_cons_self]
    | cons a pre ih =>
      intro hlt
      have ha := hlt a List.mem_cons_self
      rw [List.cons_append, insertEntry, if_neg (not_lt.mpr ha.le), if_neg (ne_of_gt ha),
        ih fun e he => hlt e (List.mem_cons_of_mem _ he), List.cons_append]
  show insertEntry k v m.entries = _
  rw [h, key pre hpre]

/-- Inserting a key that is there. -/
theorem insert_at (h : m.entries = pre ++ (k, v) :: post) (v' : ν) :
    (m.insert k v').entries = m.entries := by
  have key : ∀ pre : List (κ × ν), (∀ e ∈ pre, e.1 < k) →
      insertEntry k v' (pre ++ (k, v) :: post) = pre ++ (k, v) :: post := by
    intro pre
    induction pre with
    | nil =>
      intro _
      rw [List.nil_append, insertEntry, if_neg (lt_irrefl k), if_pos rfl]
    | cons a pre ih =>
      intro hlt
      have ha := hlt a List.mem_cons_self
      rw [List.cons_append, insertEntry, if_neg (not_lt.mpr ha.le), if_neg (ne_of_gt ha),
        ih fun e he => hlt e (List.mem_cons_of_mem _ he)]
  show insertEntry k v' m.entries = _
  rw [h, key pre fun e he => lt_key h he]

/-- Erasing everything before the cursor. -/
theorem eraseBefore_at (h : m.entries = pre ++ (k, v) :: post) :
    (m.eraseBefore (some k)).entries = (k, v) :: post := by
  have h₁ : pre.filter (fun e => decide (k ≤ e.1)) = [] := by
    rw [List.filter_eq_nil_iff]
    intro e he
    simpa using lt_key h he
  have h₂ : ((k, v) :: post).filter (fun e => decide (k ≤ e.1)) = (k, v) :: post := by
    rw [List.filter_eq_self]
    intro e he
    rcases List.mem_cons.mp he with rfl | he
    · simp
    · simpa using le_of_lt (key_lt h he)
  show m.entries.filter (fun e => decide (k ≤ e.1)) = _
  rw [h, List.filter_append, h₁, h₂, List.nil_append]

/-- Changing the value at the cursor. -/
theorem modify_at (h : m.entries = pre ++ (k, v) :: post) (f : ν → ν) :
    (m.modify k f).entries = pre ++ (k, f v) :: post := by
  have hmap : ∀ l : List (κ × ν), (∀ e ∈ l, e.1 ≠ k) →
      l.map (fun e => if e.1 = k then (e.1, f e.2) else e) = l := by
    intro l hl
    refine (List.map_congr_left fun e he => ?_).trans (List.map_id l)
    rw [if_neg (hl e he), id]
  show m.entries.map (fun e => if e.1 = k then (e.1, f e.2) else e) = _
  rw [h, List.map_append, List.map_cons,
    hmap pre fun e he => ne_of_lt (lt_key h he),
    hmap post fun e he => (ne_of_lt (key_lt h he)).symm]
  simp

end Split

/-- The entries up to a key, and those past it. -/
theorem exists_split (m : OrdMap κ ν) (k : κ) :
    ∃ pre post, m.entries = pre ++ post ∧ (∀ e ∈ pre, e.1 ≤ k) ∧ (∀ e ∈ post, k < e.1) := by
  have key : ∀ l : List (κ × ν), l.Pairwise (fun a b => a.1 < b.1) →
      ∃ pre post, l = pre ++ post ∧ (∀ e ∈ pre, e.1 ≤ k) ∧ (∀ e ∈ post, k < e.1) := by
    intro l
    induction l with
    | nil =>
      intro _
      exact ⟨[], [], rfl, by simp, by simp⟩
    | cons a l ih =>
      intro hs
      obtain ⟨ha, hl⟩ := List.pairwise_cons.mp hs
      by_cases hk : a.1 ≤ k
      · obtain ⟨pre, post, rfl, h₁, h₂⟩ := ih hl
        refine ⟨a :: pre, post, rfl, ?_, h₂⟩
        intro e he
        rcases List.mem_cons.mp he with rfl | he
        · exact hk
        · exact h₁ e he
      · refine ⟨[], a :: l, rfl, by simp, ?_⟩
        intro e he
        rcases List.mem_cons.mp he with rfl | he
        · exact not_le.mp hk
        · exact lt_trans (not_le.mp hk) (ha e he)
  exact key m.entries m.sorted

/-- The key is there, or there is a place for it. -/
theorem split_at_key (m : OrdMap κ ν) (k : κ) :
    (∃ pre v post, m.entries = pre ++ (k, v) :: post) ∨
      ∃ pre post, m.entries = pre ++ post ∧ (∀ e ∈ pre, e.1 < k) ∧ ∀ e ∈ post, k < e.1 := by
  obtain ⟨pre, post, h, hpre, hpost⟩ := m.exists_split k
  by_cases hk : ∃ e ∈ pre, e.1 = k
  · obtain ⟨e, he, rfl⟩ := hk
    obtain ⟨pre₁, pre₂, rfl⟩ := List.append_of_mem he
    exact Or.inl ⟨pre₁, e.2, pre₂ ++ post, by rw [h, List.append_assoc, List.cons_append]⟩
  · refine Or.inr ⟨pre, post, h, fun e he => ?_, hpost⟩
    exact lt_of_le_of_ne (hpre e he) fun heq => hk ⟨e, he, heq⟩

end OrdMap
