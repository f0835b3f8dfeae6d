/-
# Items that are tried in ascending order

A search that tries one item after the other may leave out those that would come to nothing.  Two
lists of items are `SameTries idle` if both ascend and differ in idle items only.  Without the idle
items they are one list (`SameTries.filter_eq`), so a loop that does nothing on an idle item does
the same on both.

Nothing here is about a particular program.
-/
import Mathlib.Data.List.Sort
import Emdros.Base.Partial

namespace Partial

section SameTries

variable {ι : Type*} [LinearOrder ι] {idle : ι → Prop} {l l' : List ι}

/-- Two ascending lists that differ in idle items only. -/
structure SameTries (idle : ι → Prop) (l l' : List ι) : Prop where
  left : l.Pairwise (· < ·)
  right : l'.Pairwise (· < ·)
  mem_iff : ∀ i, ¬ idle i → (i ∈ l ↔ i ∈ l')

theorem SameTries.mono {idle' : ι → Prop} (h : SameTries idle l l')
    (hidle : ∀ i, idle i → idle' i) : SameTries idle' l l' :=
  ⟨h.left, h.right, fun i hi => h.mem_iff i fun hidle' => hi (hidle i hidle')⟩

/-- **Without the idle items they are one list.** -/
theorem SameTries.filter_eq [DecidablePred idle] (h : SameTries idle l l') :
    l.filter (fun i => ¬ idle i) = l'.filter fun i => ¬ idle i := by
  refine List.Pairwise.eq_of_mem_iff (h.left.sublist List.filter_sublist)
    (h.right.sublist List.filter_sublist) fun i => ?_
  simp only [List.mem_filter, decide_eq_true_eq]
  exact and_congr_left fun hi => h.mem_iff i hi

/-- In an ascending list, what is taken up to a bound is what is not above it. -/
theorem mem_takeWhile_le {bound i : ι} : ∀ {l : List ι}, l.Pairwise (· < ·) →
    (i ∈ l.takeWhile (fun j => j ≤ bound) ↔ i ∈ l ∧ i ≤ bound)
  | [], _ => by simp
  | first :: l, h => by
    obtain ⟨hfirst, hl⟩ := List.pairwise_cons.mp h
    by_cases hle : first ≤ bound
    · rw [List.takeWhile_cons, if_pos (by simpa using hle), List.mem_cons, mem_takeWhile_le hl,
        List.mem_cons]
      constructor
      · rintro (rfl | hi)
        · exact ⟨Or.inl rfl, hle⟩
        · exact ⟨Or.inr hi.1, hi.2⟩
      · rintro ⟨rfl | hi, hib⟩
        · exact Or.inl rfl
        · exact Or.inr ⟨hi, hib⟩
    · rw [List.takeWhile_cons, if_neg (by simpa using hle)]
      refine iff_of_false List.not_mem_nil ?_
      rintro ⟨hi, hib⟩
      rcases List.mem_cons.mp hi with rfl | hi
      · exact hle hib
      · exact hle ((hfirst i hi).le.trans hib)

/-- Both may be cut off at a bound. -/
theorem SameTries.takeWhile (h : SameTries idle l l') (bound : ι) :
    SameTries idle (l.takeWhile fun i => i ≤ bound) (l'.takeWhile fun i => i ≤ bound) where
  left := h.left.sublist (List.takeWhile_sublist _)
  right := h.right.sublist (List.takeWhile_sublist _)
  mem_iff i hi := by
    rw [mem_takeWhile_le h.left, mem_takeWhile_le h.right, h.mem_iff i hi]

end SameTries

section Loops

variable {ι β : Type*} {m : Type _ → Type _} [Monad m] [LawfulMonad m] {idle : ι → Prop}
  {step : β → ι → m β}

/-- A loop that keeps its result on an idle item does not need the idle ones. -/
theorem foldlM_filter [DecidablePred idle] (hidle : ∀ i, idle i → ∀ b, step b i = pure b) :
    ∀ (l : List ι) (b : β), l.foldlM step b = (l.filter fun i => ¬ idle i).foldlM step b
  | [], _ => rfl
  | i :: l, b => by
    by_cases hi : idle i
    · rw [List.foldlM_cons, hidle i hi, pure_bind, foldlM_filter hidle l,
        List.filter_cons_of_neg (by simpa using hi)]
    · rw [List.foldlM_cons, List.filter_cons_of_pos (by simpa using hi), List.foldlM_cons]
      exact bind_congr fun b' => foldlM_filter hidle l b'

theorem SameTries.foldlM_eq [LinearOrder ι] {l l' : List ι} (h : SameTries idle l l')
    (hidle : ∀ i, idle i → ∀ b, step b i = pure b) (b : β) :
    l.foldlM step b = l'.foldlM step b := by
  classical
  rw [foldlM_filter hidle l, foldlM_filter hidle l', h.filter_eq]

end Loops

end Partial
