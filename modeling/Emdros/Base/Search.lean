/-
# Searching a text for another

`find` gives the first place at or after a position where a text begins another, as
`std::string::find` does; `substr` cuts a piece out, up to the end where the text is shorter.

A program that splits a text searches in what is left of it, so the lemmas relate the occurrences in
a piece to those in the whole: a piece has the occurrences that neither begin before it nor end
after it (`infix_substr_iff`).  `find` is characterised by giving the first of them
(`find_eq_some_iff`), or by there being none (`find_eq_none_iff`).

The characters are of any type with decidable equality.
-/
import Mathlib

universe u

namespace Search

variable {α : Type u}

/-- `sub` stands at position `i` of `str`. -/
def OccursAt (sub str : List α) (i : Nat) : Prop := sub <+: str.drop i

instance [DecidableEq α] (sub str : List α) (i : Nat) : Decidable (OccursAt sub str i) :=
  inferInstanceAs (Decidable (sub <+: str.drop i))

/-- The first occurrence of `sub` in `str` that does not begin before `pos`. -/
def find [DecidableEq α] (str sub : List α) (pos : Nat) : Option Nat :=
  (List.range (str.length + 1)).find? fun i => decide (pos ≤ i ∧ OccursAt sub str i)

/-- The `n` items from position `pos` on. -/
def substr (str : List α) (pos n : Nat) : List α := (str.drop pos).take n

variable {sub str : List α}

/-! ## 1. Occurrences -/

theorem OccursAt.add_length_le {i : Nat} (hne : sub ≠ []) (h : OccursAt sub str i) :
    i + sub.length ≤ str.length := by
  have hlen := h.length_le
  have hpos := List.length_pos_of_ne_nil hne
  rw [List.length_drop] at hlen
  omega

/-- An occurrence in what is left of a text is one in the text. -/
theorem occursAt_drop_iff {m i : Nat} : OccursAt sub (str.drop m) i ↔ OccursAt sub str (m + i) := by
  rw [OccursAt, OccursAt, List.drop_drop]

/-- A text that starts with what is searched for, cut in three. -/
theorem OccursAt.drop_eq {b i : Nat} (h : OccursAt sub str i) (hb : b ≤ i) :
    str.drop b = substr str b (i - b) ++ (sub ++ str.drop (i + sub.length)) := by
  have hrest : str.drop i = sub ++ str.drop (i + sub.length) := by
    obtain ⟨rest, hrest⟩ := h
    rw [← List.drop_drop, ← hrest, List.drop_left]
  have hcut : (str.drop b).drop (i - b) = str.drop i := by
    rw [List.drop_drop, Nat.add_sub_cancel' hb]
  rw [substr, ← hrest, ← hcut, List.take_append_drop]

/-- **What a piece contains**: the occurrences that neither begin before it nor end after it. -/
theorem infix_substr_iff {b e : Nat} (hne : sub ≠ []) (he : e ≤ str.length) :
    sub <:+: substr str b (e - b) ↔
      ∃ i, b ≤ i ∧ i + sub.length ≤ e ∧ OccursAt sub str i := by
  have hpos := List.length_pos_of_ne_nil hne
  constructor
  · rintro ⟨front, back, h⟩
    have hlen := congrArg List.length h
    rw [substr, List.length_take, List.length_drop, List.length_append, List.length_append] at hlen
    refine ⟨b + front.length, by omega, by omega, ?_⟩
    have hprefix : front ++ sub ++ back <+: str.drop b := h ▸ List.take_prefix _ _
    rw [← occursAt_drop_iff]
    obtain ⟨rest, hrest⟩ := hprefix
    refine ⟨back ++ rest, ?_⟩
    rw [← hrest, List.append_assoc, List.append_assoc, List.drop_left]
  · rintro ⟨i, hb, hi, hocc⟩
    have hcut := hocc.drop_eq hb
    have hlen : (substr str b (i - b)).length = i - b := by
      rw [substr, List.length_take, List.length_drop]
      omega
    refine ⟨substr str b (i - b), (str.drop (i + sub.length)).take (e - (i + sub.length)), ?_⟩
    have hsplit : e - b = (substr str b (i - b)).length +
        (sub.length + (e - (i + sub.length))) := by omega
    conv_rhs => rw [substr, hcut, hsplit]
    rw [List.take_length_add_append, List.take_length_add_append, List.append_assoc]

/-! ## 2. The search -/

variable [DecidableEq α]

theorem find_eq_some_iff {pos i : Nat} (hne : sub ≠ []) :
    find str sub pos = some i ↔
      (pos ≤ i ∧ OccursAt sub str i) ∧ ∀ j < i, pos ≤ j → ¬ OccursAt sub str j := by
  rw [find, List.find?_range_eq_some]
  simp only [decide_eq_true_eq, List.mem_range, Bool.not_eq_true', decide_eq_false_iff_not, not_and]
  constructor
  · rintro ⟨hocc, -, hfirst⟩
    exact ⟨hocc, hfirst⟩
  · rintro ⟨hocc, hfirst⟩
    have hlen := hocc.2.add_length_le hne
    exact ⟨hocc, by omega, hfirst⟩

theorem find_eq_none_iff {pos : Nat} (hne : sub ≠ []) :
    find str sub pos = none ↔ ∀ i, pos ≤ i → ¬ OccursAt sub str i := by
  rw [find, List.find?_range_eq_none]
  simp only [Bool.not_eq_true', decide_eq_false_iff_not, not_and]
  constructor
  · intro h i hpos hocc
    have hlen := hocc.add_length_le hne
    exact h i (by omega) hpos hocc
  · intro h i _ hpos
    exact h i hpos

end Search
