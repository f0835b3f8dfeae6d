/-
# Buffers of a fixed length

A buffer is a list, a position in it an integer, since a pointer may be moved one place in front of
the buffer before it is used again.  A read or a write outside the buffer has no result.

The lemmas speak of a buffer as `xs ++ c :: ys`, with the position `xs.length`: this is how loops
that fill a buffer in either direction, or reverse a part of it in place, keep their invariants.
-/
import Mathlib

universe u

namespace CharBuffer

variable {α : Type u}

/-- The item at position `p`. -/
def load (buffer : List α) (p : Int) : Option α :=
  if 0 ≤ p then buffer[p.toNat]? else none

/-- The buffer with the item at position `p` replaced. -/
def store (buffer : List α) (p : Int) (c : α) : Option (List α) :=
  if 0 ≤ p ∧ p < buffer.length then some (buffer.set p.toNat c) else none

theorem load_append_cons {xs ys : List α} {c : α} {p : Int} (hp : p = xs.length) :
    load (xs ++ c :: ys) p = some c := by
  subst hp
  simp [load]

theorem store_append_cons {xs ys : List α} {c d : α} {p : Int} (hp : p = xs.length) :
    store (xs ++ c :: ys) p d = some (xs ++ d :: ys) := by
  subst hp
  have hlt : (xs.length : Int) < (xs ++ c :: ys).length := by
    rw [List.length_append, List.length_cons]
    omega
  rw [store, if_pos ⟨Int.natCast_nonneg _, hlt⟩, Int.toNat_natCast, List.set_append_right _ _ le_rfl,
    Nat.sub_self, List.set_cons_zero]

/-- Nothing but the length of a buffer has to be known before it is filled. -/
theorem exists_split (buffer : List α) {m n : Nat} (h : buffer.length = m + n) :
    ∃ xs ys, buffer = xs ++ ys ∧ xs.length = m ∧ ys.length = n := by
  refine ⟨buffer.take m, buffer.drop m, (List.take_append_drop m buffer).symm, ?_, ?_⟩
  · rw [List.length_take, h]
    omega
  · rw [List.length_drop, h]
    omega

/-- The loop `while (q < p) swap(*q++, *p--)`. -/
def reverseBetween (buffer : List α) (q p : Int) : Option (List α) :=
  if q < p then do
    let swap_c ← load buffer p
    let buffer ← store buffer p (← load buffer q)
    let buffer ← store buffer q swap_c
    reverseBetween buffer (q + 1) (p - 1)
  else
    some buffer
termination_by (p - q).toNat

/-- **The loop reverses the items from `q` to `p`**, by induction on these from both ends. -/
theorem reverseBetween_eq (mid : List α) : ∀ (xs ys : List α) {q p : Int}, q = xs.length →
    p = xs.length + mid.length - 1 →
    reverseBetween (xs ++ mid ++ ys) q p = some (xs ++ mid.reverse ++ ys) := by
  induction mid using List.bidirectionalRec with
  | nil =>
    intro xs ys q p hq hp
    have hdone : ¬ q < p := by
      rw [List.length_nil] at hp
      omega
    rw [reverseBetween, if_neg hdone, List.reverse_nil]
  | singleton a =>
    intro xs ys q p hq hp
    have hdone : ¬ q < p := by
      rw [List.length_singleton] at hp
      omega
    rw [reverseBetween, if_neg hdone, List.reverse_singleton]
  | cons_append a mid b ih =>
    intro xs ys q p hq hp
    rw [List.length_cons, List.length_append, List.length_singleton] at hp
    have hlt : q < p := by omega
    have hsplit : xs ++ (a :: (mid ++ [b])) ++ ys = (xs ++ a :: mid) ++ b :: ys := by simp
    have hpos : p = (xs ++ a :: mid).length := by
      rw [List.length_append, List.length_cons]
      omega
    have hload : load (xs ++ (a :: (mid ++ [b])) ++ ys) q = some a := by
      rw [List.append_assoc, List.cons_append]
      exact load_append_cons hq
    have hstore : store (xs ++ a :: mid ++ a :: ys) q b = some ((xs ++ [b]) ++ mid ++ (a :: ys)) := by
      rw [List.append_assoc, List.cons_append, store_append_cons hq]
      simp
    rw [reverseBetween, if_pos hlt, hload, hsplit, load_append_cons hpos]
    simp only [Option.bind_eq_bind, Option.bind_some]
    rw [store_append_cons hpos, Option.bind_some, hstore, Option.bind_some]
    rw [ih _ _ (by rw [List.length_append, List.length_singleton, hq]; rfl)
      (by rw [List.length_append, List.length_singleton]; omega)]
    simp

section Text

variable [Zero α] [DecidableEq α]

/-- The text that starts at position `p`, which goes up to a zero. -/
def stringAt (buffer : List α) (p : Int) : Option (List α) :=
  if 0 ≤ p ∧ 0 ∈ buffer.drop p.toNat then
    some ((buffer.drop p.toNat).takeWhile fun c => decide (c ≠ 0))
  else none

theorem stringAt_append (xs ys : List α) {text : List α} {p : Int} (hp : p = xs.length)
    (h : ∀ c ∈ text, c ≠ 0) : stringAt (xs ++ text ++ 0 :: ys) p = some text := by
  subst hp
  have hdrop : (xs ++ text ++ 0 :: ys).drop xs.length = text ++ 0 :: ys := by simp
  rw [stringAt, Int.toNat_natCast, hdrop, if_pos ⟨Int.natCast_nonneg _, by simp⟩,
    List.takeWhile_append_of_pos fun c hc => decide_eq_true (h c hc),
    List.takeWhile_cons_of_neg (by simp), List.append_nil]

end Text

end CharBuffer
