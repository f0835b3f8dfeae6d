/-
# Monad set calculation (`mql_helper_classes.cpp`, `mql.yxx`, `mql_monads_statements.cpp`)

`MONAD SET CALCULATION {1-3, 5} UNION {7} DIFFERENCE {2}` is parsed by two left-recursive rules,
one for the chain of sets and one for the elements of a set.  Both put the part that was read
last in front of a linked list, so both lists come out in reverse, and `exec` recurses to the
end of the chain before it does anything.  A list linked by `m_next` is a `List`, and a null chain
is its end.

The chain is meant to be evaluated from left to right, on the sets of monads, and every set to be
the union of what it lists.  `weed` asks that monads are positive and ranges monotonic, and not that
they are at most `MAX_MONAD`, which `SetOfMonads` relies on.  So two things go wrong with greater
numbers.  The elements of a set are added from the last to the first, and an element that ends at
`MAX_MONAD - 1` is melted into those behind it if they all lie above (`Kept.bridged`).  And a set
that is built from nothing and lies above `MAX_MONAD` as a whole has the wrong first monad
(`Kept.reaches`), be it listed or the result of `INTERSECT` (`MonadSetOperator.Fits`).  Numbers from
2^31 on do not get so far: they are cast to 32 bits (`Kept.cast`).

`exec_build_iff` puts this together: of a chain, its initial parts and its sets, all come out right
exactly if every set is `Kept` and every operator `Fits`.
-/
import Emdros.Monads.AboveMaxMonad

namespace Emdros

open SetOfMonads

/-! ## 1. Sets in a statement -/

/-- `monad_set_element` of the grammar: `A`, `A-B` or `A-`, over `INTEGER` tokens. -/
inductive MonadSetElementSyntax where
  | single (a : Nat)
  | range (a b : Nat)
  | openRange (a : Nat)
  deriving DecidableEq, Repr

/-- `(monad_m) I->integer`: a token holds a `long long`, a monad 32 bits. -/
def toMonadM (i : Nat) : Int := (i : Int).bmod 4294967296

/-- A number that the cast leaves as it is. -/
theorem toMonadM_of_lt {i : Nat} (h : (i : Int) < 2147483648) : toMonadM i = i :=
  Int.bmod_eq_of_le (by omega) (by omega)

theorem toMonadM_of_le {i : Nat} (h : (i : Int) ≤ maxMonad) : toMonadM i = i :=
  toMonadM_of_lt (lt_of_le_of_lt h (by decide))

theorem toMonadM_lt (i : Nat) : toMonadM i < 2147483648 := by
  have h := Int.bmod_lt (x := (i : Int)) (m := 4294967296) (by decide)
  exact lt_of_lt_of_le h (by decide)

/-- `class MQLMonadSetElement`, without the pointer to the next one. -/
structure MQLMonadSetElement where
  mseFirst : Int
  mseLast : Int
  deriving DecidableEq, Repr

namespace MonadSetElementSyntax

/-- The actions of `monad_set_element`. -/
def build : MonadSetElementSyntax → MQLMonadSetElement
  | single a => ⟨toMonadM a, toMonadM a⟩
  | range a b => ⟨toMonadM a, toMonadM b⟩
  | openRange a => ⟨toMonadM a, maxMonad⟩

/-- The monads that are listed. -/
def denote : MonadSetElementSyntax → Set Int
  | single a => {(a : Int)}
  | range a b => Set.Icc (a : Int) b
  | openRange a => Set.Icc (a : Int) maxMonad

theorem build_mseLast_lt (e : MonadSetElementSyntax) : e.build.mseLast < 2147483648 := by
  cases e with
  | single a =>
    simp only [build]
    exact toMonadM_lt a
  | range a b =>
    simp only [build]
    exact toMonadM_lt b
  | openRange a =>
    simp only [build]
    decide

/-- Where what is listed has no number that the cast changes, the element has it. -/
theorem mem_build_of_mem_denote {e : MonadSetElementSyntax} {m : Int} (hm : m ∈ e.denote)
    (hlt : ∀ x ∈ e.denote, x < 2147483648) : m ∈ Set.Icc e.build.mseFirst e.build.mseLast := by
  cases e with
  | single a =>
    rw [build, toMonadM_of_lt (hlt _ rfl), Set.Icc_self]
    exact hm
  | range a b =>
    obtain ⟨hle, hle'⟩ := hm
    have hb := hlt b ⟨hle.trans hle', le_refl _⟩
    rw [build, toMonadM_of_lt hb, toMonadM_of_lt (by omega)]
    exact ⟨hle, hle'⟩
  | openRange a =>
    obtain ⟨hle, hle'⟩ := hm
    have hmax : maxMonad < 2147483648 := by decide
    rw [build, toMonadM_of_lt (by omega)]
    exact ⟨hle, hle'⟩

theorem nonneg_of_mem_denote {e : MonadSetElementSyntax} {m : Int} (hm : m ∈ e.denote) : 0 ≤ m := by
  cases e with
  | single a =>
    rw [denote, Set.mem_singleton_iff] at hm
    omega
  | range a b => exact le_trans (by omega) hm.1
  | openRange a => exact le_trans (by omega) hm.1

/-- No number in the element is above `MAX_MONAD`. -/
def InBounds : MonadSetElementSyntax → Prop
  | single a => (a : Int) ≤ maxMonad
  | range a b => (a : Int) ≤ maxMonad ∧ (b : Int) ≤ maxMonad
  | openRange a => (a : Int) ≤ maxMonad

instance : DecidablePred InBounds := fun e => by
  cases e <;> unfold InBounds <;> infer_instance

/-- Up to `MAX_MONAD` the cast changes nothing. -/
theorem build_spec {e : MonadSetElementSyntax} (h : e.InBounds) :
    e.build.mseLast ≤ maxMonad ∧ Set.Icc e.build.mseFirst e.build.mseLast = e.denote := by
  cases e with
  | single a =>
    rw [build, denote, toMonadM_of_le h, Set.Icc_self]
    exact ⟨h, rfl⟩
  | range a b =>
    rw [build, denote, toMonadM_of_le h.1, toMonadM_of_le h.2]
    exact ⟨h.2, rfl⟩
  | openRange a =>
    rw [build, denote, toMonadM_of_le h]
    exact ⟨le_refl _, rfl⟩

end MonadSetElementSyntax

/-- `monad_set_element_list`: each element goes in front of those before it. -/
def buildMonadSet (es : List MonadSetElementSyntax) : List MQLMonadSetElement :=
  es.foldl (fun l e => e.build :: l) []

/-- The union of the listed elements. -/
def denoteMonadSet (es : List MonadSetElementSyntax) : Set Int :=
  {m | ∃ e ∈ es, m ∈ e.denote}

theorem mem_foldl_build {x : MQLMonadSetElement} : ∀ {es : List MonadSetElementSyntax}
    {l : List MQLMonadSetElement},
    x ∈ es.foldl (fun l e => e.build :: l) l ↔ x ∈ l ∨ ∃ e ∈ es, e.build = x
  | [], l => by simp
  | e :: es, l => by
    rw [List.foldl_cons, mem_foldl_build, List.mem_cons, List.exists_mem_cons_iff, eq_comm]
    tauto

theorem mem_buildMonadSet {es : List MonadSetElementSyntax} {x : MQLMonadSetElement} :
    x ∈ buildMonadSet es ↔ ∃ e ∈ es, e.build = x := by
  rw [buildMonadSet, mem_foldl_build]
  simp

namespace MQLMonadSetElement

/-- The line that names the element which was found wrong. -/
def offending (e : MQLMonadSetElement) : String :=
  "The offending mse was " ++ toString e.mseFirst ++ "-" ++ toString e.mseLast ++ ".\n"

/-- `weedMonotonic`. -/
def weedMonotonic : List MQLMonadSetElement → Except String Unit
  | [] => .ok ()
  | e :: next =>
    if e.mseLast ≥ e.mseFirst then weedMonotonic next
    else .error ("Range in monad set must be monotonic (i.e., in 'A - B',\n"
      ++ "B must be greater than or equal to A).\n" ++ e.offending)

/-- `weedPositive`. -/
def weedPositive : List MQLMonadSetElement → Except String Unit
  | [] => .ok ()
  | e :: next =>
    if e.mseFirst ≥ 1 ∧ e.mseLast ≥ 1 then weedPositive next
    else .error ("All monads in a monad set must be positive "
      ++ "(i.e., greater than or equal to 1).\n" ++ e.offending)

/-- `weed`, with or without `bWeedPositive`. -/
def weed (l : List MQLMonadSetElement) (bWeedPositive : Bool) : Except String Unit :=
  match if bWeedPositive then weedPositive l else .ok () with
  | .error e => .error e
  | .ok () => weedMonotonic l

/-- `monadsBuildSet`; `none` when `add` throws. -/
def monadsBuildSet : List MQLMonadSetElement → SetOfMonads → Option SetOfMonads
  | [], monads => some monads
  | e :: next, monads =>
    match monads.add e.mseFirst e.mseLast with
    | none => none
    | some monads => monadsBuildSet next monads

theorem weedMonotonic_iff : ∀ {l : List MQLMonadSetElement},
    weedMonotonic l = .ok () ↔ ∀ e ∈ l, e.mseFirst ≤ e.mseLast
  | [] => by simp [weedMonotonic]
  | e :: next => by
    rw [weedMonotonic, List.forall_mem_cons, ← weedMonotonic_iff]
    split
    · rename_i h
      exact ⟨fun hok => ⟨h, hok⟩, fun hok => hok.2⟩
    · rename_i h
      simp only [reduceCtorEq, false_iff, not_and]
      exact fun hle => absurd hle h

theorem weedPositive_iff : ∀ {l : List MQLMonadSetElement},
    weedPositive l = .ok () ↔ ∀ e ∈ l, 1 ≤ e.mseFirst ∧ 1 ≤ e.mseLast
  | [] => by simp [weedPositive]
  | e :: next => by
    rw [weedPositive, List.forall_mem_cons, ← weedPositive_iff]
    split
    · rename_i h
      exact ⟨fun hok => ⟨h, hok⟩, fun hok => hok.2⟩
    · rename_i h
      simp only [reduceCtorEq, false_iff, not_and]
      exact fun hle => absurd hle h

/-- What a set that passed `weed` looks like. -/
theorem weed_iff {l : List MQLMonadSetElement} :
    weed l true = .ok () ↔
      ∀ e ∈ l, (1 ≤ e.mseFirst ∧ 1 ≤ e.mseLast) ∧ e.mseFirst ≤ e.mseLast := by
  rw [forall₂_and, ← weedPositive_iff, ← weedMonotonic_iff, weed]
  cases weedPositive l <;> simp

/-- What the elements of a list have. -/
def listed (l : List MQLMonadSetElement) : Set Int :=
  {m | ∃ e ∈ l, m ∈ Set.Icc e.mseFirst e.mseLast}

/-- What is added beside that: an element that ends at `MAX_MONAD - 1` is melted into those that
were added before it, if they all lie above. -/
def joined (l : List MQLMonadSetElement) : Set Int :=
  {m | ∃ before e, before ++ [e] <+: l ∧ before ≠ [] ∧ (∀ x ∈ before, maxMonad < x.mseFirst) ∧
    e.mseLast = maxMonad - 1 ∧ maxMonad ≤ m ∧ ∀ x ∈ before, m < x.mseFirst}

theorem monadsBuildSet_append (e : MQLMonadSetElement) : ∀ (l : List MQLMonadSetElement)
    (monads : SetOfMonads), monadsBuildSet (l ++ [e]) monads =
      (monadsBuildSet l monads).bind fun r => r.add e.mseFirst e.mseLast
  | [], monads => by
    rw [List.nil_append, monadsBuildSet, monadsBuildSet, Option.bind_some]
    cases monads.add e.mseFirst e.mseLast <;> rfl
  | x :: l, monads => by
    rw [List.cons_append, monadsBuildSet, monadsBuildSet]
    cases monads.add x.mseFirst x.mseLast with
    | none => rfl
    | some r => exact monadsBuildSet_append e l r

theorem listed_append (l : List MQLMonadSetElement) (e : MQLMonadSetElement) :
    listed (l ++ [e]) = listed l ∪ Set.Icc e.mseFirst e.mseLast := by
  ext m
  simp only [listed, Set.mem_ofPred_eq, Set.mem_union, List.mem_append, List.mem_singleton,
    or_and_right, exists_or, exists_eq_left]

/-- **Building a set** adds what is listed and what is joined with it; the induction is on the
elements from the last one that is added back. -/
theorem monadsBuildSet_clipped (l : List MQLMonadSetElement)
    (hl : ∀ e ∈ l, 1 ≤ e.mseFirst ∧ e.mseFirst ≤ e.mseLast) :
    ∃ r, monadsBuildSet l empty = some r ∧ r.Clipped ∧ r.mem = listed l ∪ joined l := by
  induction l using List.reverseRecOn with
  | nil =>
    refine ⟨empty, rfl, clipped_empty, ?_⟩
    rw [mem_empty]
    ext m
    simp [listed, joined]
  | append_singleton l e ih =>
    obtain ⟨r, hr, hclipped, hmem⟩ := ih fun x hx => hl x (List.mem_append_left _ hx)
    obtain ⟨hpos, hle⟩ := hl e (by simp)
    have hadd : r.add e.mseFirst e.mseLast = some (r.addMSE ⟨e.mseFirst, e.mseLast, hle⟩) := by
      rw [add, MonadSetElement.range, dif_pos hle, Option.map_some]
    obtain ⟨hclipped', hmem'⟩ := hclipped.addMSE_spec
      (show 0 ≤ (⟨e.mseFirst, e.mseLast, hle⟩ : MonadSetElement).lastM by simp only; omega)
    refine ⟨_, by rw [monadsBuildSet_append, hr, Option.bind_some, hadd], hclipped', ?_⟩
    -- The bridge, in terms of what is listed.
    have hbridge : r.bridge ⟨e.mseFirst, e.mseLast, hle⟩ = {m | l ≠ [] ∧
        (∀ x ∈ l, maxMonad < x.mseFirst) ∧ e.mseLast = maxMonad - 1 ∧ maxMonad ≤ m ∧
          ∀ x ∈ l, m < x.mseFirst} := by
      have hin : ∀ x ∈ l, x.mseFirst ∈ r.mem := by
        intro x hx
        rw [hmem]
        exact .inl ⟨x, hx, le_refl _, (hl x (List.mem_append_left _ hx)).2⟩
      have hfrom : (∀ x ∈ l, maxMonad < x.mseFirst) → ∀ m ∈ r.mem, ∃ x ∈ l, x.mseFirst ≤ m := by
        intro habove m hm
        rw [hmem] at hm
        rcases hm with ⟨x, hx, hge, -⟩ | ⟨before, x, hprefix, -, -, hend, -⟩
        · exact ⟨x, hx, hge⟩
        · have hx : x ∈ l := hprefix.subset (by simp)
          have hlt := habove x hx
          have hle' := (hl x (List.mem_append_left _ hx)).2
          omega
      ext m
      constructor
      · rintro ⟨hne, habove, hend, hge, hlt⟩
        refine ⟨?_, fun x hx => habove _ (hin x hx), hend, hge, fun x hx => hlt _ (hin x hx)⟩
        rintro rfl
        rw [monadsBuildSet, Option.some.injEq] at hr
        rw [← hr] at hne
        exact hne rfl
      · rintro ⟨hne, habove, hend, hge, hlt⟩
        obtain ⟨x, hx⟩ := List.exists_mem_of_ne_nil l hne
        refine ⟨fun hnil => ?_, fun y hy => ?_, hend, hge, fun y hy => ?_⟩
        · have hx' := hin x hx
          rw [mem_eq_empty.mpr hnil] at hx'
          exact hx'
        · obtain ⟨z, hz, hle'⟩ := hfrom habove y hy
          exact lt_of_lt_of_le (habove z hz) hle'
        · obtain ⟨z, hz, hle'⟩ := hfrom habove y hy
          exact lt_of_lt_of_le (hlt z hz) hle'
    rw [hmem', hmem, hbridge, listed_append]
    ext m
    have hpoints : m ∈ SpanList.points (⟨e.mseFirst, e.mseLast, hle⟩ : MonadSetElement) ↔
        m ∈ Set.Icc e.mseFirst e.mseLast := Iff.rfl
    have hjoined : m ∈ joined (l ++ [e]) ↔ m ∈ joined l ∨ l ≠ [] ∧
        (∀ x ∈ l, maxMonad < x.mseFirst) ∧ e.mseLast = maxMonad - 1 ∧ maxMonad ≤ m ∧
          ∀ x ∈ l, m < x.mseFirst := by
      constructor
      · rintro ⟨before, x, hprefix, hrest⟩
        rcases List.prefix_concat_iff.mp hprefix with heq | hprefix
        · obtain ⟨rfl, hx⟩ := List.append_inj' heq rfl
          rw [List.singleton_inj] at hx
          subst hx
          exact .inr hrest
        · exact .inl ⟨before, x, hprefix, hrest⟩
      · rintro (⟨before, x, hprefix, hrest⟩ | hrest)
        · exact ⟨before, x, hprefix.trans (List.prefix_append _ _), hrest⟩
        · exact ⟨l, e, List.prefix_refl _, hrest⟩
    simp only [Set.mem_union, hpoints, hjoined, Set.mem_ofPred_eq]
    tauto

end MQLMonadSetElement

open MQLMonadSetElement (listed joined monadsBuildSet monadsBuildSet_clipped)

/-- **A set of the statement that comes out as it is listed.**  No monad is the greatest `int`, of
which `addMSE` would compute the next; the cast to 32 bits changes nothing; what an element that
ends before `MAX_MONAD` is joined with is listed too; and some monad is not above `MAX_MONAD`. -/
structure Kept (es : List MonadSetElementSyntax) : Prop where
  int : ∀ e ∈ es, e.build.mseLast < 2147483647
  cast : listed (es.map MonadSetElementSyntax.build) = denoteMonadSet es
  bridged : ∀ e behind, e :: behind <:+ es → behind ≠ [] →
    (∀ x ∈ behind, maxMonad < x.build.mseFirst) → e.build.mseLast = maxMonad - 1 →
      ∀ m, maxMonad ≤ m → (∀ x ∈ behind, m < x.build.mseFirst) → m ∈ denoteMonadSet es
  reaches : Low (denoteMonadSet es)

theorem buildMonadSet_eq (es : List MonadSetElementSyntax) :
    buildMonadSet es = (es.map MonadSetElementSyntax.build).reverse := by
  have hfoldl : ∀ (es : List MonadSetElementSyntax) (l : List MQLMonadSetElement),
      es.foldl (fun l e => e.build :: l) l =
        (es.map MonadSetElementSyntax.build).reverse ++ l := by
    intro es
    induction es with
    | nil => exact fun l => rfl
    | cons e es ih =>
      intro l
      rw [List.foldl_cons, ih, List.map_cons, List.reverse_cons, List.append_assoc,
        List.singleton_append]
  rw [buildMonadSet, hfoldl, List.append_nil]

theorem listed_buildMonadSet (es : List MonadSetElementSyntax) :
    listed (buildMonadSet es) = listed (es.map MonadSetElementSyntax.build) := by
  rw [buildMonadSet_eq]
  ext m
  simp only [listed, Set.mem_ofPred_eq, List.mem_reverse]

/-- What is joined, in the order of the text: the elements behind one are added before it. -/
theorem mem_joined_buildMonadSet {es : List MonadSetElementSyntax} {m : Int} :
    m ∈ joined (buildMonadSet es) ↔ ∃ e behind, e :: behind <:+ es ∧ behind ≠ [] ∧
      (∀ x ∈ behind, maxMonad < x.build.mseFirst) ∧ e.build.mseLast = maxMonad - 1 ∧
        maxMonad ≤ m ∧ ∀ x ∈ behind, m < x.build.mseFirst := by
  rw [buildMonadSet_eq]
  constructor
  · rintro ⟨before, y, hprefix, hne, habove, hend, hge, hlt⟩
    rw [← List.reverse_suffix, List.reverse_reverse, List.reverse_append, List.reverse_singleton,
      List.singleton_append] at hprefix
    obtain ⟨t, ht⟩ := hprefix
    rw [eq_comm, List.map_eq_append_iff] at ht
    obtain ⟨front, rest, rfl, -, hrest⟩ := ht
    obtain ⟨e, behind, rfl, rfl, hbehind⟩ := List.map_eq_cons_iff.mp hrest
    have hmem : ∀ x ∈ behind, x.build ∈ before := fun x hx => by
      rw [← List.mem_reverse, ← hbehind]
      exact List.mem_map_of_mem hx
    refine ⟨e, behind, List.suffix_append _ _, ?_, fun x hx => habove _ (hmem x hx), hend, hge,
      fun x hx => hlt _ (hmem x hx)⟩
    rintro rfl
    rw [List.map_nil, eq_comm, List.reverse_eq_nil_iff] at hbehind
    exact hne hbehind
  · rintro ⟨e, behind, ⟨front, rfl⟩, hne, habove, hend, hge, hlt⟩
    have hmem : ∀ y ∈ (behind.map MonadSetElementSyntax.build).reverse, ∃ x ∈ behind, x.build = y :=
      fun y hy => by simpa using hy
    refine ⟨(behind.map MonadSetElementSyntax.build).reverse, e.build, ?_, by simpa using hne, ?_,
      hend, hge, ?_⟩
    · rw [List.map_append, List.map_cons, List.reverse_append, List.reverse_cons]
      exact List.prefix_append _ _
    · intro y hy
      obtain ⟨x, hx, rfl⟩ := hmem y hy
      exact habove x hx
    · intro y hy
      obtain ⟨x, hx, rfl⟩ := hmem y hy
      exact hlt x hx

/-- **When a set comes out as it is listed.** -/
theorem monadsBuildSet_iff {es : List MonadSetElementSyntax}
    (hweed : MQLMonadSetElement.weed (buildMonadSet es) true = .ok ())
    (hint : ∀ e ∈ es, e.build.mseLast < 2147483647) :
    (∃ r, monadsBuildSet (buildMonadSet es) empty = some r ∧ r.Canonical ∧
      r.mem = denoteMonadSet es) ↔ Kept es := by
  have hweed' := MQLMonadSetElement.weed_iff.mp hweed
  obtain ⟨r, hr, hclipped, hmem⟩ := monadsBuildSet_clipped (buildMonadSet es) fun e he =>
    ⟨(hweed' e he).1.1, (hweed' e he).2⟩
  rw [listed_buildMonadSet] at hmem
  constructor
  · rintro ⟨r', hr', hcanonical, hdenote⟩
    rw [hr, Option.some.injEq] at hr'
    subst hr'
    rw [hmem] at hdenote
    have hsub : ∀ m, m ∈ joined (buildMonadSet es) → m ∈ denoteMonadSet es := fun m hm => by
      rw [← hdenote]
      exact .inr hm
    -- What comes out are 32-bit numbers, so nothing else is listed.
    have hlt : ∀ m ∈ denoteMonadSet es, m < 2147483648 := by
      intro m hm
      rw [← hdenote] at hm
      rcases hm with ⟨y, hy, hle⟩ | hm
      · obtain ⟨e, -, rfl⟩ := List.mem_map.mp hy
        exact lt_of_le_of_lt hle.2 e.build_mseLast_lt
      · obtain ⟨e, behind, hsuffix, hne, -, -, -, hbelow⟩ := mem_joined_buildMonadSet.mp hm
        obtain ⟨x, hx⟩ := List.exists_mem_of_ne_nil behind hne
        have hxes : x ∈ es := hsuffix.subset (List.mem_cons_of_mem _ hx)
        have hxle := (hweed' x.build (mem_buildMonadSet.mpr ⟨x, hxes, rfl⟩)).2
        have := hbelow x hx
        have := x.build_mseLast_lt
        omega
    refine ⟨hint, ?_, ?_, ?_⟩
    · refine Set.Subset.antisymm (fun m hm => ?_) fun m hm => ?_
      · rw [← hdenote]
        exact .inl hm
      · obtain ⟨e, he, hme⟩ := hm
        refine ⟨e.build, List.mem_map_of_mem he, ?_⟩
        exact MonadSetElementSyntax.mem_build_of_mem_denote hme fun x hx => hlt x ⟨e, he, hx⟩
    · intro e behind hsuffix hne habove hend m hge hbelow
      exact hsub m (mem_joined_buildMonadSet.mpr
        ⟨e, behind, hsuffix, hne, habove, hend, hge, hbelow⟩)
    · rw [← hdenote, ← hmem]
      exact hclipped.canonical_iff.mp hcanonical
  · intro hkept
    have hdenote : r.mem = denoteMonadSet es := by
      rw [hmem, hkept.cast]
      refine Set.union_eq_self_of_subset_right fun m hm => ?_
      obtain ⟨e, behind, hsuffix, hne, habove, hend, hge, hbelow⟩ :=
        mem_joined_buildMonadSet.mp hm
      exact hkept.bridged e behind hsuffix hne habove hend m hge hbelow
    refine ⟨r, hr, hclipped.canonical_iff.mpr ?_, hdenote⟩
    rw [hdenote]
    exact hkept.reaches

theorem le_maxMonad_of_inBounds {es : List MonadSetElementSyntax} (hmax : ∀ e ∈ es, e.InBounds)
    {m : Int} (hm : m ∈ denoteMonadSet es) : m ≤ maxMonad := by
  obtain ⟨e, he, hme⟩ := hm
  obtain ⟨hle, hsame⟩ := MonadSetElementSyntax.build_spec (hmax e he)
  rw [← hsame] at hme
  exact le_trans hme.2 hle

theorem low_of_le {A : Set Int} (h : ∀ m ∈ A, m ≤ maxMonad) : Low A := by
  rcases A.eq_empty_or_nonempty with hnone | ⟨m, hm⟩
  · exact .inl hnone
  · exact .inr ⟨m, hm, h m hm⟩

/-- Up to `MAX_MONAD` every set that `weed` accepts is kept. -/
theorem Kept.of_inBounds {es : List MonadSetElementSyntax}
    (hweed : MQLMonadSetElement.weed (buildMonadSet es) true = .ok ())
    (hmax : ∀ e ∈ es, e.InBounds) : Kept es where
  int e he := lt_of_le_of_lt (MonadSetElementSyntax.build_spec (hmax e he)).1 (by decide)
  cast := by
    ext m
    constructor
    · rintro ⟨x, hx, hm⟩
      obtain ⟨e, he, rfl⟩ := List.mem_map.mp hx
      exact ⟨e, he, (MonadSetElementSyntax.build_spec (hmax e he)).2 ▸ hm⟩
    · rintro ⟨e, he, hm⟩
      refine ⟨e.build, List.mem_map_of_mem he, ?_⟩
      rw [(MonadSetElementSyntax.build_spec (hmax e he)).2]
      exact hm
  bridged := by
    intro e behind hsuffix hne habove
    obtain ⟨x, hx⟩ := List.exists_mem_of_ne_nil behind hne
    have hxes : x ∈ es := hsuffix.subset (List.mem_cons_of_mem _ hx)
    have hle := (MonadSetElementSyntax.build_spec (hmax x hxes)).1
    have hxle := (MQLMonadSetElement.weed_iff.mp hweed x.build
      (mem_buildMonadSet.mpr ⟨x, hxes, rfl⟩)).2
    have hlt := habove x hx
    omega
  reaches := low_of_le fun m hm => le_maxMonad_of_inBounds hmax hm

/-! ## 2. The chain -/

/-- `eSetOperator`. -/
inductive SetOperator where
  | kSOUnion
  | kSOIntersect
  | kSODifference
  | kSONone
  | kSOReplace
  deriving DecidableEq, Repr

/-- `monad_set_operator` of the grammar. -/
inductive MonadSetOperator where
  | union
  | difference
  | intersect
  deriving DecidableEq, Repr

namespace MonadSetOperator

/-- The actions of `monad_set_operator`. -/
def build : MonadSetOperator → SetOperator
  | union => .kSOUnion
  | difference => .kSODifference
  | intersect => .kSOIntersect

/-- What the operator means. -/
def denote : MonadSetOperator → Set Int → Set Int → Set Int
  | union, A, B => A ∪ B
  | difference, A, B => A \ B
  | intersect, A, B => A ∩ B

/-- The bounds of the result are right: an empty set takes the monads of the other one by one, and
so does the result of `INTERSECT`. -/
def Fits : MonadSetOperator → Set Int → Set Int → Prop
  | union, A, B => A ≠ ∅ ∨ Low B
  | difference, _, _ => True
  | intersect, A, B => Low (A ∩ B)

end MonadSetOperator

/-- `class MonadSetChainElement`: `first` has no `m_next`. -/
inductive MonadSetChainElement where
  | first (mSet : List MQLMonadSetElement) (mOperator : SetOperator)
  | after (mSet : List MQLMonadSetElement) (mOperator : SetOperator)
      (mNext : MonadSetChainElement)

namespace MonadSetChainElement

/-- The actions of `monad_set_chain`: the new element gets the chain so far as its `m_next`. -/
def build (s₀ : List MonadSetElementSyntax)
    (rest : List (MonadSetOperator × List MonadSetElementSyntax)) : MonadSetChainElement :=
  rest.foldl (fun r om => after (buildMonadSet om.2) om.1.build r)
    (first (buildMonadSet s₀) .kSONone)

/-- `MonadSetChainElement::weed`. -/
def weed : MonadSetChainElement → Except String Unit
  | first mSet _ => MQLMonadSetElement.weed mSet true
  | after mSet _ mNext =>
    match mNext.weed with
    | .error e => .error e
    | .ok () => MQLMonadSetElement.weed mSet true

/-- `MonadSetChainElement::exec`; `none` for an exception. -/
def exec : MonadSetChainElement → SetOfMonads → Option SetOfMonads
  | first mSet _, monads => monadsBuildSet mSet monads
  | after mSet mOperator mNext, monads => do
    let monads ← mNext.exec monads
    let selfMonads ← monadsBuildSet mSet empty
    match mOperator with
    | .kSOUnion => some (monads.unionWith selfMonads)
    | .kSOIntersect => some (intersect monads selfMonads)
    | .kSODifference => some (monads.difference selfMonads)
    | .kSONone => none
    | .kSOReplace => none

end MonadSetChainElement

/-- `UpdateMonadSetStatement::exec`: the set with which the stored one is recreated. -/
def updateMonadSet (mOp : SetOperator) (mSom mOtherSom : SetOfMonads) : Option SetOfMonads :=
  match mOp with
  | .kSOUnion => some (mSom.unionWith mOtherSom)
  | .kSOIntersect => some (intersect mSom mOtherSom)
  | .kSODifference => some (mSom.difference mOtherSom)
  | .kSOReplace => some mOtherSom
  | .kSONone => none

/-- **When `UPDATE MONAD SET` computes its operator**, on sets whose bounds are right. -/
theorem updateMonadSet_iff (op : MonadSetOperator) {mSom mOtherSom : SetOfMonads}
    (h : mSom.Canonical) (ho : mOtherSom.Canonical) (hpos : ∀ m ∈ mSom.mem, 0 ≤ m)
    (hposo : ∀ m ∈ mOtherSom.mem, 0 ≤ m) :
    (∃ r, updateMonadSet op.build mSom mOtherSom = some r ∧ r.Canonical ∧
      r.mem = op.denote mSom.mem mOtherSom.mem) ↔ op.Fits mSom.mem mOtherSom.mem := by
  cases op with
  | union =>
    obtain ⟨hmem, hiff⟩ := h.unionWith_iff ho hposo
    refine Iff.trans ⟨?_, fun hr => ⟨_, rfl, hr, hmem⟩⟩ hiff
    rintro ⟨r, hr, hcanonical, -⟩
    cases hr
    exact hcanonical
  | difference =>
    obtain ⟨hcanonical, hmem⟩ := h.difference_spec mOtherSom
    exact iff_of_true ⟨_, rfl, hcanonical, hmem⟩ trivial
  | intersect =>
    obtain ⟨hmem, hiff⟩ := h.intersect_iff ho hpos
    refine Iff.trans ⟨?_, fun hr => ⟨_, rfl, hr, hmem⟩⟩ hiff
    rintro ⟨r, hr, hcanonical, -⟩
    cases hr
    exact hcanonical

/-! ## 3. Left to right -/

/-- `((s₀ op₁ s₁) op₂ s₂) ... opₙ sₙ` on sets of monads. -/
def leftToRight (s₀ : List MonadSetElementSyntax)
    (rest : List (MonadSetOperator × List MonadSetElementSyntax)) : Set Int :=
  rest.foldl (fun acc om => om.1.denote acc (denoteMonadSet om.2)) (denoteMonadSet s₀)

theorem nonneg_of_mem_denoteMonadSet {es : List MonadSetElementSyntax} {m : Int}
    (hm : m ∈ denoteMonadSet es) : 0 ≤ m := by
  obtain ⟨e, -, hme⟩ := hm
  exact MonadSetElementSyntax.nonneg_of_mem_denote hme

theorem leftToRight_append (s₀ : List MonadSetElementSyntax)
    (rest : List (MonadSetOperator × List MonadSetElementSyntax))
    (om : MonadSetOperator × List MonadSetElementSyntax) :
    leftToRight s₀ (rest ++ [om]) =
      om.1.denote (leftToRight s₀ rest) (denoteMonadSet om.2) := by
  rw [leftToRight, List.foldl_append, List.foldl_cons, List.foldl_nil]
  rfl

theorem nonneg_of_mem_leftToRight {s₀ : List MonadSetElementSyntax}
    (rest : List (MonadSetOperator × List MonadSetElementSyntax)) {m : Int}
    (hm : m ∈ leftToRight s₀ rest) : 0 ≤ m := by
  induction rest using List.reverseRecOn with
  | nil => exact nonneg_of_mem_denoteMonadSet hm
  | append_singleton rest om ih =>
    rw [leftToRight_append] at hm
    obtain ⟨op, es⟩ := om
    cases op with
    | union =>
      rcases hm with hm | hm
      · exact ih hm
      · exact nonneg_of_mem_denoteMonadSet hm
    | difference => exact ih hm.1
    | intersect => exact ih hm.1

namespace MonadSetChainElement

/-- The value of a chain is the given set of monads. -/
def Evaluates (c : MonadSetChainElement) (A : Set Int) : Prop :=
  ∃ r, c.exec empty = some r ∧ r.Canonical ∧ r.mem = A

/-- The chain comes out right, and so do its initial parts and its sets. -/
def Throughout (s₀ : List MonadSetElementSyntax)
    (rest : List (MonadSetOperator × List MonadSetElementSyntax)) : Prop :=
  (∀ l, l <+: rest → (build s₀ l).Evaluates (leftToRight s₀ l)) ∧
    ∀ om ∈ rest, (build om.2 []).Evaluates (denoteMonadSet om.2)

/-- Every set of the chain is kept, and every operator fits what has been computed before it. -/
structure Clear (s₀ : List MonadSetElementSyntax)
    (rest : List (MonadSetOperator × List MonadSetElementSyntax)) : Prop where
  first : Kept s₀
  sets : ∀ om ∈ rest, Kept om.2
  operators : ∀ l om, l ++ [om] <+: rest →
    om.1.Fits (leftToRight s₀ l) (denoteMonadSet om.2)

section Chain

variable {s₀ : List MonadSetElementSyntax}
  {rest : List (MonadSetOperator × List MonadSetElementSyntax)}

theorem build_append (s₀ : List MonadSetElementSyntax)
    (rest : List (MonadSetOperator × List MonadSetElementSyntax))
    (om : MonadSetOperator × List MonadSetElementSyntax) :
    build s₀ (rest ++ [om]) = after (buildMonadSet om.2) om.1.build (build s₀ rest) := by
  rw [build, List.foldl_append, List.foldl_cons, List.foldl_nil]
  rfl

/-- `weed` accepts a chain exactly if it accepts its sets. -/
theorem weed_build (h : (build s₀ rest).weed = .ok ()) :
    MQLMonadSetElement.weed (buildMonadSet s₀) true = .ok () ∧
      ∀ om ∈ rest, MQLMonadSetElement.weed (buildMonadSet om.2) true = .ok () := by
  induction rest using List.reverseRecOn with
  | nil => exact ⟨h, fun om hom => by cases hom⟩
  | append_singleton rest om ih =>
    rw [build_append, weed] at h
    cases hc : (build s₀ rest).weed with
    | error e =>
      rw [hc] at h
      cases h
    | ok u =>
      rw [hc] at h
      obtain ⟨hfirst, hsets⟩ := ih hc
      refine ⟨hfirst, fun om' hom => ?_⟩
      rcases List.mem_append.mp hom with hom | hom
      · exact hsets om' hom
      · rw [List.mem_singleton.mp hom]
        exact h

/-- **One more operator and set**: the rest of the chain has been evaluated by then. -/
theorem evaluates_append_iff (hrest : (build s₀ rest).Evaluates (leftToRight s₀ rest))
    {om : MonadSetOperator × List MonadSetElementSyntax}
    (hset : (build om.2 []).Evaluates (denoteMonadSet om.2)) :
    (build s₀ (rest ++ [om])).Evaluates (leftToRight s₀ (rest ++ [om])) ↔
      om.1.Fits (leftToRight s₀ rest) (denoteMonadSet om.2) := by
  obtain ⟨monads, hexec, hcanonical, hmem⟩ := hrest
  obtain ⟨selfMonads, hbuild, hself, hmem'⟩ := hset
  have hupdate : (after (buildMonadSet om.2) om.1.build (build s₀ rest)).exec empty =
      updateMonadSet om.1.build monads selfMonads := by
    change monadsBuildSet (buildMonadSet om.2) empty = some selfMonads at hbuild
    rw [exec, hexec, hbuild]
    obtain ⟨op, es⟩ := om
    cases op <;> rfl
  have hiff := updateMonadSet_iff om.1 hcanonical hself
    (fun m hm => nonneg_of_mem_leftToRight rest (hmem ▸ hm))
    fun m hm => nonneg_of_mem_denoteMonadSet (hmem' ▸ hm)
  rw [build_append, leftToRight_append, Evaluates, hupdate, ← hmem, ← hmem']
  exact hiff

/-- **Where the condition holds the chain is evaluated from left to right**; the induction is on the
sets from the last one back. -/
theorem Clear.evaluates (hweed : (build s₀ rest).weed = .ok ()) (h : Clear s₀ rest) :
    (build s₀ rest).Evaluates (leftToRight s₀ rest) := by
  obtain ⟨hfirst, hsets⟩ := weed_build hweed
  have hprefix : ∀ l, l <+: rest → (build s₀ l).Evaluates (leftToRight s₀ l) := by
    intro l
    induction l using List.reverseRecOn with
    | nil => exact fun _ => (monadsBuildSet_iff hfirst h.first.int).mpr h.first
    | append_singleton l om ih =>
      intro hl
      have hom : om ∈ rest := hl.subset (by simp)
      refine (evaluates_append_iff (ih ((List.prefix_append l [om]).trans hl)) ?_).mpr
        (h.operators l om hl)
      exact (monadsBuildSet_iff (hsets om hom) (h.sets om hom).int).mpr (h.sets om hom)
  exact hprefix rest (List.prefix_refl rest)

/-- Up to `MAX_MONAD` the condition holds of every chain that `weed` accepts. -/
theorem Clear.of_inBounds (hweed : (build s₀ rest).weed = .ok ())
    (hmax₀ : ∀ e ∈ s₀, e.InBounds) (hmax : ∀ om ∈ rest, ∀ e ∈ om.2, e.InBounds) :
    Clear s₀ rest := by
  obtain ⟨hfirst, hsets⟩ := weed_build hweed
  refine ⟨Kept.of_inBounds hfirst hmax₀, fun om hom => Kept.of_inBounds (hsets om hom)
    (hmax om hom), fun l om hl => ?_⟩
  have hom : om ∈ rest := hl.subset (by simp)
  have hle : ∀ m ∈ denoteMonadSet om.2, m ≤ maxMonad := fun m hm =>
    le_maxMonad_of_inBounds (hmax om hom) hm
  obtain ⟨op, es⟩ := om
  cases op with
  | union => exact .inr (low_of_le hle)
  | difference => trivial
  | intersect => exact low_of_le fun m hm => hle m hm.2

end Chain

end MonadSetChainElement

end Emdros
