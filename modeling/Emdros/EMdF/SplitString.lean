/-
# Splitting a text on a separator (`split_string_on_string`, `joinList`)

Joining the pieces always gives back the text, up to a separator in front and one at the end.
The pieces need not be free of the separator: the end of the first piece is looked for as many
bytes behind its beginning as the separator has, so that a separator which begins before that
place stays in the piece, unless one that overlaps it is found.

The loop is followed round by round: what is left of the text is split, and where the next
separator is looked for depends on whether it is the first round.  A separator can overlap itself,
as in `aaa` with the separator `aa`, and so "contains no separator" has to be said of all
occurrences and not of those that a search from the left would find (`Overlapped`).
`splitStringOnString_iff` puts the list of pieces in these terms, for every text and every separator
that is not empty.
-/
import Mathlib
import Emdros.Base.Search

namespace Emdros

namespace SplitString

open Search

/-! ## 1. The functions -/

/-- The loop of `split_string_on_string`, in at most `n` rounds; `none` when these are not enough,
as for an empty separator, with which the loop makes no progress. -/
def splitLoop (instring splitstring : List UInt8) : Nat → Nat → Option (List (List UInt8))
  | 0, _ => none
  | n + 1, nbegin =>
    if nbegin = instring.length then some []
    else
      match find instring splitstring nbegin with
      | none => some [substr instring nbegin (instring.length - nbegin)]
      | some nend =>
        (splitLoop instring splitstring n (nend + splitstring.length)).map
          (substr instring nbegin (nend - nbegin) :: ·)

/-- Where the first piece begins. -/
def firstBegin (instring splitstring : List UInt8) : Nat :=
  if find instring splitstring 0 = some 0 then splitstring.length else 0

/-- `split_string_on_string`: the output list. -/
def splitStringOnString (instring splitstring : List UInt8) : Option (List (List UInt8)) :=
  if find instring splitstring 0 = none then some [instring]
  else
    let nbegin := firstBegin instring splitstring
    match find instring splitstring (nbegin + splitstring.length) with
    | none => some [substr instring nbegin (instring.length - nbegin)]
    | some nend =>
      (splitLoop instring splitstring (instring.length + 1) (nend + splitstring.length)).map
        (substr instring nbegin (nend - nbegin) :: ·)

/-- `joinList`. -/
def joinList (between : List UInt8) : List (List UInt8) → List UInt8
  | [] => []
  | ci :: l => ci ++ l.flatMap (between ++ ·)

/-! ## 2. The loop -/

variable {instring splitstring : List UInt8}

theorem joinList_cons {between ci : List UInt8} {l : List (List UInt8)} (h : l ≠ []) :
    joinList between (ci :: l) = ci ++ between ++ joinList between l := by
  obtain ⟨cj, l, rfl⟩ := List.exists_cons_of_ne_nil h
  simp [joinList]

/-- What is left of a text from position `b` on is the join of `pieces`, up to one separator. -/
def Rejoins (instring splitstring : List UInt8) (b : Nat) (pieces : List (List UInt8)) : Prop :=
  ∃ trail ∈ [[], splitstring], instring.drop b = joinList splitstring pieces ++ trail

theorem rejoins_rest (instring splitstring : List UInt8) (b : Nat) :
    Rejoins instring splitstring b [substr instring b (instring.length - b)] := by
  refine ⟨[], List.mem_cons_self, ?_⟩
  rw [substr, List.take_of_length_le (by rw [List.length_drop]), joinList, List.flatMap_nil,
    List.append_nil, List.append_nil]

/-- A piece that ends at a separator, in front of the pieces after that. -/
theorem rejoins_cons {b nend : Nat} {pieces : List (List UInt8)} (hb : b ≤ nend)
    (hocc : OccursAt splitstring instring nend)
    (hpieces : pieces = [] ∧ nend + splitstring.length = instring.length ∨
      pieces ≠ [] ∧ Rejoins instring splitstring (nend + splitstring.length) pieces) :
    Rejoins instring splitstring b (substr instring b (nend - b) :: pieces) := by
  rcases hpieces with ⟨rfl, hend⟩ | ⟨hne, trail, htrail, hrest⟩
  · refine ⟨splitstring, List.mem_cons_of_mem _ List.mem_cons_self, ?_⟩
    rw [hocc.drop_eq hb, hend, List.drop_length, List.append_nil, joinList, List.flatMap_nil,
      List.append_nil]
  · refine ⟨trail, htrail, ?_⟩
    rw [hocc.drop_eq hb, hrest, joinList_cons hne, List.append_assoc, List.append_assoc]

/-- **The loop splits what is left**, by induction on the rounds. -/
theorem splitLoop_spec (hne : splitstring ≠ []) : ∀ {n : Nat} (nbegin : Nat), nbegin ≤ instring.length →
    instring.length < nbegin + n → ∃ pieces,
      splitLoop instring splitstring n nbegin = some pieces ∧
        (∀ p ∈ pieces, ¬ splitstring <:+: p) ∧
        (pieces = [] ∧ nbegin = instring.length ∨
          pieces ≠ [] ∧ Rejoins instring splitstring nbegin pieces) := by
  have hpos := List.length_pos_of_ne_nil hne
  intro n
  induction n with
  | zero =>
    intro nbegin hle hlt
    omega
  | succ n ih =>
    intro nbegin hle hlt
    rw [splitLoop]
    split
    · rename_i hend
      exact ⟨[], rfl, fun p hp => absurd hp List.not_mem_nil, Or.inl ⟨rfl, hend⟩⟩
    · cases hfind : find instring splitstring nbegin with
      | none =>
        rw [find_eq_none_iff hne] at hfind
        refine ⟨_, rfl, ?_, Or.inr ⟨List.cons_ne_nil _ _, rejoins_rest _ _ _⟩⟩
        intro p hp
        rw [List.mem_singleton] at hp
        rw [hp, infix_substr_iff hne le_rfl]
        rintro ⟨i, hb, -, hocc⟩
        exact hfind i hb hocc
      | some nend =>
        obtain ⟨⟨hb, hocc⟩, hfirst⟩ := (find_eq_some_iff hne).mp hfind
        have hlen := hocc.add_length_le hne
        obtain ⟨pieces, hloop, hfree, hpieces⟩ :=
          ih (nend + splitstring.length) hlen (by omega)
        refine ⟨substr instring nbegin (nend - nbegin) :: pieces, ?_, ?_,
          Or.inr ⟨List.cons_ne_nil _ _, ?_⟩⟩
        · dsimp only
          rw [hloop, Option.map_some]
        · intro p hp
          rcases List.mem_cons.mp hp with rfl | hp
          · rw [infix_substr_iff hne (Nat.le_of_add_right_le hlen)]
            rintro ⟨i, hi, hie, hocc⟩
            exact hfirst i (by omega) hi hocc
          · exact hfree p hp
        · exact rejoins_cons hb hocc hpieces

/-! ## 3. The first piece -/

theorem find_zero_eq_some_zero_iff (hne : splitstring ≠ []) :
    find instring splitstring 0 = some 0 ↔ splitstring <+: instring := by
  rw [find_eq_some_iff hne]
  constructor
  · rintro ⟨⟨-, hocc⟩, -⟩
    exact hocc
  · intro h
    exact ⟨⟨le_rfl, h⟩, fun j hj => absurd hj (Nat.not_lt_zero j)⟩

/-- The text without a separator in front. -/
def withoutLead (instring splitstring : List UInt8) : List UInt8 :=
  if splitstring <+: instring then instring.drop splitstring.length else instring

theorem drop_firstBegin (hne : splitstring ≠ []) :
    instring.drop (firstBegin instring splitstring) = withoutLead instring splitstring := by
  rw [firstBegin, withoutLead]
  simp only [find_zero_eq_some_zero_iff hne]
  split
  · rfl
  · rw [List.drop_zero]

theorem firstBegin_le_length (instring : List UInt8) (hne : splitstring ≠ []) :
    firstBegin instring splitstring ≤ instring.length := by
  rw [firstBegin]
  simp only [find_zero_eq_some_zero_iff hne]
  split
  · rename_i hlead
    exact hlead.length_le
  · exact Nat.zero_le _

/-- The text is `withoutLead`, up to a separator in front. -/
theorem exists_lead (instring splitstring : List UInt8) :
    ∃ lead ∈ [[], splitstring], instring = lead ++ withoutLead instring splitstring := by
  rw [withoutLead]
  split
  · rename_i hlead
    obtain ⟨rest, rfl⟩ := hlead
    exact ⟨splitstring, List.mem_cons_of_mem _ List.mem_cons_self, by rw [List.drop_left]⟩
  · exact ⟨[], List.mem_cons_self, (List.nil_append _).symm⟩

/-- Every separator that begins in front of the place from which the end of the first piece is
looked for is overlapped by one that begins at or after it. -/
def Overlapped (u splitstring : List UInt8) : Prop :=
  ∀ i < splitstring.length, OccursAt splitstring u i →
    ∃ j, splitstring.length ≤ j ∧ j < i + splitstring.length ∧ OccursAt splitstring u j

theorem overlapped_of_absent {u : List UInt8} (h : ¬ splitstring <:+: u) :
    Overlapped u splitstring := by
  intro i _ hocc
  exact absurd (hocc.isInfix.trans (List.drop_suffix i u).isInfix) h

/-- The first piece when no end is found for it. -/
theorem not_infix_rest_iff (hne : splitstring ≠ []) {b : Nat}
    (hend : find instring splitstring (b + splitstring.length) = none) :
    ¬ splitstring <:+: substr instring b (instring.length - b) ↔
      Overlapped (instring.drop b) splitstring := by
  rw [find_eq_none_iff hne] at hend
  rw [infix_substr_iff hne le_rfl]
  constructor
  · intro hfree i _ hocc
    rw [occursAt_drop_iff] at hocc
    exact absurd ⟨b + i, Nat.le_add_right b i, hocc.add_length_le hne, hocc⟩ hfree
  · rintro hover ⟨i, hi, -, hocc⟩
    have hlt : i - b < splitstring.length := by
      by_contra hge
      exact hend i (by omega) hocc
    rw [← Nat.add_sub_cancel' hi, ← occursAt_drop_iff] at hocc
    obtain ⟨j, hj, -, hocc'⟩ := hover (i - b) hlt hocc
    rw [occursAt_drop_iff] at hocc'
    exact hend (b + j) (Nat.add_le_add_left hj b) hocc'

/-- The first piece when its end is found at `nend`. -/
theorem not_infix_first_iff (hne : splitstring ≠ []) {b nend : Nat}
    (hend : find instring splitstring (b + splitstring.length) = some nend) :
    ¬ splitstring <:+: substr instring b (nend - b) ↔
      Overlapped (instring.drop b) splitstring := by
  obtain ⟨⟨hb, hnend⟩, hfirst⟩ := (find_eq_some_iff hne).mp hend
  have hlen := hnend.add_length_le hne
  rw [infix_substr_iff hne (Nat.le_of_add_right_le hlen)]
  constructor
  · intro hfree i hi hocc
    rw [occursAt_drop_iff] at hocc
    refine ⟨nend - b, by omega, ?_, ?_⟩
    · by_contra hge
      exact hfree ⟨b + i, Nat.le_add_right b i, by omega, hocc⟩
    · rw [occursAt_drop_iff, Nat.add_sub_cancel' (by omega)]
      exact hnend
  · rintro hover ⟨i, hi, hie, hocc⟩
    have hpos := List.length_pos_of_ne_nil hne
    have hlt : i - b < splitstring.length := by
      by_contra hge
      exact hfirst i (by omega) (by omega) hocc
    rw [← Nat.add_sub_cancel' hi, ← occursAt_drop_iff] at hocc
    obtain ⟨j, hj, hj', hocc'⟩ := hover (i - b) hlt hocc
    rw [occursAt_drop_iff] at hocc'
    exact hfirst (b + j) (by omega) (by omega) hocc'

/-! ## 4. The result -/

/-- **What the list of pieces is**: it joins to the text, and it is free of separators when they
are overlapped as `Overlapped` asks. -/
theorem splitStringOnString_spec (instring : List UInt8) (hne : splitstring ≠ []) : ∃ pieces,
    splitStringOnString instring splitstring = some pieces ∧
      ((∀ p ∈ pieces, ¬ splitstring <:+: p) ↔
        Overlapped (withoutLead instring splitstring) splitstring) ∧
      ∃ lead ∈ [[], splitstring], ∃ trail ∈ [[], splitstring],
        instring = lead ++ joinList splitstring pieces ++ trail := by
  have hpos := List.length_pos_of_ne_nil hne
  rw [splitStringOnString]
  split
  · rename_i hnone
    have hfree : ¬ splitstring <:+: instring := by
      rw [find_eq_none_iff hne] at hnone
      have hpiece := infix_substr_iff (b := 0) hne (le_refl instring.length)
      rw [substr, List.drop_zero, Nat.sub_zero, List.take_length] at hpiece
      rw [hpiece]
      rintro ⟨i, hi, -, hocc⟩
      exact hnone i hi hocc
    have hlead : ¬ splitstring <+: instring := fun h => hfree h.isInfix
    refine ⟨[instring], rfl, ?_, [], List.mem_cons_self, [], List.mem_cons_self, ?_⟩
    · rw [List.forall_mem_singleton, withoutLead, if_neg hlead]
      exact iff_of_true hfree (overlapped_of_absent hfree)
    · simp [joinList]
  · have hb := firstBegin_le_length instring hne
    obtain ⟨lead, hlead, hinstring⟩ := exists_lead instring splitstring
    rw [← drop_firstBegin hne] at hinstring ⊢
    generalize firstBegin instring splitstring = b at hb hinstring ⊢
    dsimp only
    cases hend : find instring splitstring (b + splitstring.length) with
    | none =>
      obtain ⟨trail, htrail, hrest⟩ := rejoins_rest instring splitstring b
      refine ⟨_, rfl, ?_, lead, hlead, trail, htrail, ?_⟩
      · rw [List.forall_mem_singleton]
        exact not_infix_rest_iff hne hend
      · rw [List.append_assoc, ← hrest]
        exact hinstring
    | some nend =>
      obtain ⟨⟨hnend, hocc⟩, -⟩ := (find_eq_some_iff hne).mp hend
      have hlen := hocc.add_length_le hne
      obtain ⟨pieces, hloop, hfree, hpieces⟩ := splitLoop_spec hne (n := instring.length + 1) _ hlen
        (by omega)
      obtain ⟨trail, htrail, hrest⟩ := rejoins_cons (b := b) (by omega) hocc hpieces
      refine ⟨substr instring b (nend - b) :: pieces, ?_, ?_, lead, hlead, trail, htrail, ?_⟩
      · dsimp only
        rw [hloop, Option.map_some]
      · rw [List.forall_mem_cons, ← not_infix_first_iff hne hend]
        exact and_iff_left hfree
      · rw [List.append_assoc, ← hrest]
        exact hinstring

/-- **Splitting on a separator.**  The pieces are free of the separator and join to the text, up
to one separator in front and one at the end, exactly when no separator hides in the first
piece. -/
theorem splitStringOnString_iff {instring splitstring : List UInt8} (hne : splitstring ≠ []) :
    (∃ pieces, splitStringOnString instring splitstring = some pieces ∧
      (∀ p ∈ pieces, ¬ splitstring <:+: p) ∧
      ∃ lead ∈ [[], splitstring], ∃ trail ∈ [[], splitstring],
        instring = lead ++ joinList splitstring pieces ++ trail) ↔
      Overlapped (withoutLead instring splitstring) splitstring := by
  obtain ⟨pieces, hsplit, hfree, hjoin⟩ := splitStringOnString_spec instring hne
  constructor
  · rintro ⟨pieces', hsplit', hfree', -⟩
    rw [hsplit, Option.some_inj] at hsplit'
    rw [← hfree, hsplit']
    exact hfree'
  · intro hover
    exact ⟨pieces, hsplit, hfree.mpr hover, hjoin⟩

/-- `"a,b,"` is split on `","`. -/
theorem splitStringOnString_iff_comma :
    (∃ pieces, splitStringOnString [97, 44, 98, 44] [44] = some pieces ∧
      (∀ p ∈ pieces, ¬ [44] <:+: p) ∧
      ∃ lead ∈ [[], [44]], ∃ trail ∈ [[], [44]],
        [97, 44, 98, 44] = lead ++ joinList [44] pieces ++ trail) ↔
      Overlapped (withoutLead [97, 44, 98, 44] [44]) [44] :=
  splitStringOnString_iff (List.cons_ne_nil 44 [])

/-- `",,a"` is one piece, `",a"`. -/
theorem not_split_two_commas : ¬ ∃ pieces,
    splitStringOnString [44, 44, 97] [44] = some pieces ∧ (∀ p ∈ pieces, ¬ [44] <:+: p) ∧
      ∃ lead ∈ [[], [44]], ∃ trail ∈ [[], [44]],
        [44, 44, 97] = lead ++ joinList [44] pieces ++ trail := by
  have hsplit : splitStringOnString [44, 44, 97] [44] = some [[44, 97]] := by decide
  rintro ⟨pieces, hpieces, hfree, -⟩
  rw [hsplit, Option.some_inj] at hpieces
  subst hpieces
  exact hfree [44, 97] (by decide) (by decide)

end SplitString

end Emdros
