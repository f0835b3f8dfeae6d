/-
# Combining hit lists (`harvest_fts3.cpp`, `harvest_fts.cpp`)

Search engine 3 finds the bookcases of the monads of a token with `merge_with_bookcases`, leaves
in the hit lists of its terms the bookcases that all of them have, and brings terms of a phrase
together with `merge_range`.

`local_filter_hit_list_bookcases` goes over the lists once and compares each with the one before.
A list is not looked at again after its successor, so that the first list keeps what it has in
common with the second: `keepsCommon_iff`.  `merge_range` takes the sign of a range into account
and then compares with the range itself, which for a negative range nothing is below:
`keepsInRange_iff`.
-/
import Emdros.Harvest.BookcaseHits

namespace Emdros

namespace BookcaseHitList

/-! ## 1. What the operations leave -/

/-- The list has hits in the bookcase. -/
def HasBookcase (l : BookcaseHitList) (bookcase : Bookcase) : Prop :=
  ∃ m, l.Holds ⟨bookcase, m⟩

theorem Holds.hasBookcase {l : BookcaseHitList} {hit : BookcaseHit} (h : l.Holds hit) :
    l.HasBookcase hit.bookcase := ⟨hit.hitFm, h⟩

theorem holds_addHits {l : BookcaseHitList} {hits : List BookcaseHit} {hit : BookcaseHit} :
    (l.addHits hits).Holds hit ↔ l.Holds hit ∨ hit ∈ hits := by
  induction hits generalizing l with
  | nil => simp [addHits]
  | cons added hits ih =>
    have hadd : (l.addHit added).Holds hit ↔ hit = added ∨ l.Holds hit := by
      rw [← mem_held, ← mem_held]
      rcases held_addHit l added with ⟨hmem, hsame⟩ | ⟨-, hperm⟩
      · rw [hsame]
        constructor
        · exact Or.inr
        · rintro (rfl | h)
          · exact hmem
          · exact h
      · rw [hperm.mem_iff, List.mem_cons]
    change ((l.addHit added).addHits hits).Holds hit ↔ _
    rw [ih, hadd, List.mem_cons]
    tauto

@[simp] theorem not_holds_clearHitMap (l : BookcaseHitList) (hit : BookcaseHit) :
    ¬l.clearHitMap.Holds hit := by
  rintro ⟨s, hs, -⟩
  cases hs

/-- What is found under a bookcase is its set. -/
theorem find_eq_some_iff {l : BookcaseHitList} {bookcase : Bookcase} {s : HitSet} :
    l.find bookcase = some s ↔ (bookcase, s) ∈ l.hits.entries := by
  unfold find
  constructor
  · intro h
    obtain ⟨e, he, rfl⟩ := Option.map_eq_some_iff.mp h
    have hkey := List.find?_some he
    have hmem := List.mem_of_find?_eq_some he
    rw [decide_eq_true_eq] at hkey
    rw [← hkey]
    exact hmem
  · intro h
    obtain ⟨pre, post, hsplit⟩ := List.append_of_mem h
    have hpre : pre.find? (fun e => decide (e.1 = bookcase)) = none := by
      rw [List.find?_eq_none]
      intro a ha
      simp [ne_of_lt (OrdMap.lt_key hsplit ha)]
    rw [hsplit, List.find?_append, hpre]
    simp

theorem isSome_find_iff {l : BookcaseHitList} (hl : l.NoneEmpty) {bookcase : Bookcase} :
    (l.find bookcase).isSome = true ↔ l.HasBookcase bookcase := by
  rw [Option.isSome_iff_exists]
  constructor
  · rintro ⟨s, hs⟩
    have hmem := find_eq_some_iff.mp hs
    obtain ⟨m, hm⟩ := List.exists_mem_of_ne_nil _ (hl _ hmem)
    exact ⟨m, s, hmem, hm⟩
  · rintro ⟨m, s, hs, -⟩
    exact ⟨s, find_eq_some_iff.mpr hs⟩

/-- `filter` leaves the hits in the bookcases that the other list has. -/
theorem holds_filter {hl1 hl2 : BookcaseHitList} (h : hl2.NoneEmpty) {hit : BookcaseHit} :
    (filter hl1 hl2).Holds hit ↔ hl1.Holds hit ∧ hl2.HasBookcase hit.bookcase := by
  rw [filter_eq, holds_addHits, ← isSome_find_iff h, mem_hitsOf]
  simp [commonEntries, Holds]
  tauto

theorem noneEmpty_filter (hl1 hl2 : BookcaseHitList) : (filter hl1 hl2).NoneEmpty := by
  rw [filter_eq]
  exact noneEmpty_addHits (noneEmpty_clearHitMap hl1) _

/-- `empty()`. -/
def isEmpty (l : BookcaseHitList) : Bool := l.hits.isEmpty

theorem isEmpty_iff {l : BookcaseHitList} (hl : l.NoneEmpty) :
    l.isEmpty = true ↔ ∀ hit, ¬l.Holds hit := by
  unfold isEmpty OrdMap.isEmpty
  rw [List.isEmpty_iff]
  constructor
  · rintro h hit ⟨s, hs, -⟩
    rw [h] at hs
    cases hs
  · intro h
    rw [List.eq_nil_iff_forall_not_mem]
    intro e he
    obtain ⟨m, hm⟩ := List.exists_mem_of_ne_nil _ (hl e he)
    exact h ⟨e.1, m⟩ ⟨e.2, he, hm⟩

/-! ## 2. Bookcases in all lists -/

/-- `l.filter_both(other)`: the new `l` and the new `other`. -/
def filterBoth (l other : BookcaseHitList) : BookcaseHitList × BookcaseHitList :=
  if l.getBookcaseCount < other.getBookcaseCount then
    let l' := filter l other
    (l', filter other l')
  else
    let other' := filter other l
    (filter l other', other')

section FilterBoth

variable {l other : BookcaseHitList}

theorem noneEmpty_filterBoth (l other : BookcaseHitList) :
    (l.filterBoth other).1.NoneEmpty ∧ (l.filterBoth other).2.NoneEmpty := by
  unfold filterBoth
  split
  · exact ⟨noneEmpty_filter _ _, noneEmpty_filter _ _⟩
  · exact ⟨noneEmpty_filter _ _, noneEmpty_filter _ _⟩

/-- **Both lists keep their hits in the bookcases of both**, whichever is filtered first. -/
theorem holds_filterBoth (hl : l.NoneEmpty) (hother : other.NoneEmpty) {hit : BookcaseHit} :
    ((l.filterBoth other).1.Holds hit ↔ l.Holds hit ∧ other.HasBookcase hit.bookcase) ∧
      ((l.filterBoth other).2.Holds hit ↔ other.Holds hit ∧ l.HasBookcase hit.bookcase) := by
  have hsecond : ∀ {a b : BookcaseHitList}, a.NoneEmpty → b.NoneEmpty →
      ((filter a (filter b a)).Holds hit ↔ a.Holds hit ∧ b.HasBookcase hit.bookcase) := by
    intro a b ha hb
    rw [holds_filter (noneEmpty_filter b a)]
    refine and_congr_right fun hhit => ?_
    constructor
    · rintro ⟨m, hm⟩
      exact ((holds_filter ha).mp hm).1.hasBookcase
    · rintro ⟨m, hm⟩
      exact ⟨m, (holds_filter ha).mpr ⟨hm, hhit.hasBookcase⟩⟩
  unfold filterBoth
  split
  · exact ⟨holds_filter hother, hsecond hother hl⟩
  · exact ⟨hsecond hl hother, holds_filter hl⟩

theorem hasBookcase_filterBoth (hl : l.NoneEmpty) (hother : other.NoneEmpty)
    {bookcase : Bookcase} :
    ((l.filterBoth other).1.HasBookcase bookcase ↔
      l.HasBookcase bookcase ∧ other.HasBookcase bookcase) ∧
    ((l.filterBoth other).2.HasBookcase bookcase ↔
      l.HasBookcase bookcase ∧ other.HasBookcase bookcase) := by
  unfold HasBookcase
  simp only [(holds_filterBoth hl hother).1, (holds_filterBoth hl hother).2]
  exact ⟨⟨fun ⟨m, hm, hb⟩ => ⟨⟨m, hm⟩, hb⟩, fun ⟨⟨m, hm⟩, hb⟩ => ⟨m, hm, hb⟩⟩,
    ⟨fun ⟨m, hm, hb⟩ => ⟨hb, ⟨m, hm⟩⟩, fun ⟨hb, ⟨m, hm⟩⟩ => ⟨m, hm, hb⟩⟩⟩

end FilterBoth

end BookcaseHitList

namespace FTS3

open BookcaseHitList

/-- `class FTS3TermDict`, as its hit lists in the order of the terms. -/
abbrev TermDict := List (List UInt8 × BookcaseHitList)

/-- The loop of `local_filter_hit_list_bookcases`, from a list on of which `pPrev_hit_list` is
the one before. -/
def filterFrom (prev : List UInt8 × BookcaseHitList) : TermDict → Bool × TermDict
  | [] => (true, [prev])
  | it :: rest =>
    let (hitList, prevHitList) := it.2.filterBoth prev.2
    if hitList.isEmpty || prevHitList.isEmpty then
      (false, (prev.1, prevHitList) :: (it.1, hitList) :: rest)
    else
      let (result, rest) := filterFrom (it.1, hitList) rest
      (result, (prev.1, prevHitList) :: rest)

/-- `local_filter_hit_list_bookcases`: what it returns, and the hit lists afterwards. -/
def localFilterHitListBookcases : TermDict → Bool × TermDict
  | [] => (true, [])
  | it :: rest => filterFrom it rest

/-- The bookcase is in all hit lists. -/
def InAll (dict : TermDict) (bookcase : Bookcase) : Prop := ∀ it ∈ dict, it.2.HasBookcase bookcase

/-- What the comment of the function asks for. -/
structure KeepsCommon (dict : TermDict) (result : Bool) (dict' : TermDict) : Prop where
  hits : List.Forall₂ (fun it it' => it'.1 = it.1 ∧ ∀ hit : BookcaseHit,
    it'.2.Holds hit ↔ it.2.Holds hit ∧ InAll dict hit.bookcase) dict dict'
  result : result = true ↔ ∀ it ∈ dict', ∃ hit, it.2.Holds hit

/-- Where one pass is enough: what the first two lists have in common all others have too, and if
it is nothing, the others are empty. -/
def PassSuffices : TermDict → Prop
  | [] => True
  | [it] => ∃ hit, it.2.Holds hit
  | it :: it' :: rest =>
    ((∃ bookcase, InAll [it, it'] bookcase) ∧
      ∀ bookcase, InAll [it, it'] bookcase → InAll rest bookcase) ∨
    (∀ bookcase, ¬InAll [it, it'] bookcase) ∧ ∀ k ∈ rest, ∀ hit, ¬k.2.Holds hit

section Filter

variable {prev it : List UInt8 × BookcaseHitList} {dict rest : TermDict}

theorem inAll_cons {bookcase : Bookcase} :
    InAll (it :: dict) bookcase ↔ it.2.HasBookcase bookcase ∧ InAll dict bookcase :=
  List.forall_mem_cons

@[simp] theorem inAll_nil (bookcase : Bookcase) : InAll [] bookcase := fun _ h => by cases h

theorem inAll_pair {bookcase : Bookcase} :
    InAll [prev, it] bookcase ↔ prev.2.HasBookcase bookcase ∧ it.2.HasBookcase bookcase := by
  simp [inAll_cons]

/-- One round, where the lists have nothing in common. -/
theorem filterFrom_cons_of_disjoint (hprev : prev.2.NoneEmpty) (hit : it.2.NoneEmpty)
    (h : ∀ bookcase, ¬InAll [prev, it] bookcase) :
    filterFrom prev (it :: rest) = (false, (prev.1, (it.2.filterBoth prev.2).2) ::
      (it.1, (it.2.filterBoth prev.2).1) :: rest) := by
  have hempty : (it.2.filterBoth prev.2).1.isEmpty = true := by
    rw [isEmpty_iff (noneEmpty_filterBoth _ _).1]
    intro x hx
    have hcommon := (hasBookcase_filterBoth hit hprev).1.mp hx.hasBookcase
    exact h _ (inAll_pair.mpr hcommon.symm)
  rw [filterFrom]
  simp [hempty]

/-- One round, where they have something in common. -/
theorem filterFrom_cons_of_common (hprev : prev.2.NoneEmpty) (hit : it.2.NoneEmpty)
    {bookcase : Bookcase} (h : InAll [prev, it] bookcase) :
    filterFrom prev (it :: rest) =
      ((filterFrom (it.1, (it.2.filterBoth prev.2).1) rest).1,
        (prev.1, (it.2.filterBoth prev.2).2) ::
          (filterFrom (it.1, (it.2.filterBoth prev.2).1) rest).2) := by
  obtain ⟨hnone, hnone'⟩ := noneEmpty_filterBoth it.2 prev.2
  have hboth := @hasBookcase_filterBoth _ _ hit hprev bookcase
  have hcommon := inAll_pair.mp h
  have hne : (it.2.filterBoth prev.2).1.isEmpty ≠ true := by
    rw [Ne, isEmpty_iff hnone]
    obtain ⟨m, hm⟩ := hboth.1.mpr hcommon.symm
    exact fun hall => hall _ hm
  have hne' : (it.2.filterBoth prev.2).2.isEmpty ≠ true := by
    rw [Ne, isEmpty_iff hnone']
    obtain ⟨m, hm⟩ := hboth.2.mpr hcommon.symm
    exact fun hall => hall _ hm
  rw [filterFrom]
  simp [hne, hne']

/-- A list whose bookcases all later lists have is what these are reduced to.  By induction on
them; each hands the same bookcases on. -/
theorem filterFrom_of_subset (hprev : prev.2.NoneEmpty) (hrest : ∀ k ∈ rest, k.2.NoneEmpty)
    (hsome : ∃ bookcase, prev.2.HasBookcase bookcase)
    (hsub : ∀ bookcase, prev.2.HasBookcase bookcase → InAll rest bookcase) :
    (filterFrom prev rest).1 = true ∧
      List.Forall₂ (fun it it' => it'.1 = it.1 ∧ ∀ hit : BookcaseHit,
        it'.2.Holds hit ↔ it.2.Holds hit ∧ prev.2.HasBookcase hit.bookcase)
        (prev :: rest) (filterFrom prev rest).2 := by
  induction rest generalizing prev with
  | nil =>
    refine ⟨rfl, .cons ⟨rfl, fun hit => ?_⟩ .nil⟩
    exact ⟨fun h => ⟨h, h.hasBookcase⟩, And.left⟩
  | cons it rest ih =>
    have hit : it.2.NoneEmpty := hrest it List.mem_cons_self
    obtain ⟨bookcase, hbookcase⟩ := hsome
    have hhas : ∀ b, prev.2.HasBookcase b → it.2.HasBookcase b := fun b hb =>
      (inAll_cons.mp (hsub b hb)).1
    -- What the list before is left with, and hands on, is what it had.
    have hsame : ∀ b, (it.2.filterBoth prev.2).1.HasBookcase b ↔ prev.2.HasBookcase b := by
      intro b
      rw [(hasBookcase_filterBoth hit hprev).1]
      exact ⟨And.right, fun hb => ⟨hhas b hb, hb⟩⟩
    obtain ⟨hresult, hforall⟩ := @ih (it.1, (it.2.filterBoth prev.2).1)
      (noneEmpty_filterBoth it.2 prev.2).1 (fun k hk => hrest k (List.mem_cons_of_mem _ hk))
      ⟨bookcase, (hsame bookcase).mpr hbookcase⟩
      fun b hb => (inAll_cons.mp (hsub b ((hsame b).mp hb))).2
    rw [filterFrom_cons_of_common hprev hit (inAll_pair.mpr ⟨hbookcase, hhas _ hbookcase⟩)]
    refine ⟨hresult, .cons ⟨rfl, fun x => ?_⟩ ?_⟩
    · rw [(holds_filterBoth hit hprev).2]
      exact ⟨fun h => ⟨h.1, h.1.hasBookcase⟩, fun h => ⟨h.1, hhas _ h.2⟩⟩
    · obtain ⟨it', rest', hfirst, hothers, heq⟩ := List.forall₂_cons_left_iff.mp hforall
      rw [heq]
      refine .cons ⟨hfirst.1, fun x => ?_⟩ (hothers.imp fun a b hab => ⟨hab.1, fun x => ?_⟩)
      · rw [hfirst.2, hsame, (holds_filterBoth hit hprev).1]
        tauto
      · rw [hab.2, hsame]

end Filter

section Pass

variable {prev it : List UInt8 × BookcaseHitList} {rest : TermDict}

/-- The first list is not looked at again, so that it keeps what it has in common with the
second. -/
theorem KeepsCommon.inAll_rest (hprev : prev.2.NoneEmpty) (hit : it.2.NoneEmpty)
    {bookcase : Bookcase} (hcommon : InAll [prev, it] bookcase)
    (h : KeepsCommon (prev :: it :: rest) (filterFrom prev (it :: rest)).1
      (filterFrom prev (it :: rest)).2) : InAll rest bookcase := by
  have hhits := h.hits
  rw [filterFrom_cons_of_common hprev hit hcommon] at hhits
  obtain ⟨m, hm⟩ := (hasBookcase_filterBoth hit hprev).2.mpr (inAll_pair.mp hcommon).symm
  cases hhits with
  | cons hfirst _ =>
    have hall := ((hfirst.2 _).mp hm).2
    exact (inAll_cons.mp (inAll_cons.mp hall).2).2

theorem keepsCommon_of_common (hprev : prev.2.NoneEmpty) (hit : it.2.NoneEmpty)
    (hrest : ∀ k ∈ rest, k.2.NoneEmpty) {bookcase : Bookcase}
    (hcommon : InAll [prev, it] bookcase)
    (hsub : ∀ bookcase, InAll [prev, it] bookcase → InAll rest bookcase) :
    KeepsCommon (prev :: it :: rest) (filterFrom prev (it :: rest)).1
      (filterFrom prev (it :: rest)).2 := by
  have hpair : ∀ b, (it.2.filterBoth prev.2).1.HasBookcase b ↔ InAll [prev, it] b := by
    intro b
    rw [(hasBookcase_filterBoth hit hprev).1, inAll_pair, and_comm]
  have hall : ∀ b, InAll (prev :: it :: rest) b ↔ InAll [prev, it] b := by
    intro b
    rw [inAll_cons, inAll_cons, inAll_pair]
    exact ⟨fun hb => ⟨hb.1, hb.2.1⟩, fun hb => ⟨hb.1, hb.2, hsub b (inAll_pair.mpr hb)⟩⟩
  obtain ⟨hresult, hforall⟩ := @filterFrom_of_subset
    (it.1, (it.2.filterBoth prev.2).1) rest (noneEmpty_filterBoth it.2 prev.2).1 hrest
    ⟨bookcase, (hpair bookcase).mpr hcommon⟩ fun b hb => hsub b ((hpair b).mp hb)
  obtain ⟨it', rest', hfirst, hothers, heq⟩ := List.forall₂_cons_left_iff.mp hforall
  rw [filterFrom_cons_of_common hprev hit hcommon, hresult, heq]
  have hhits : List.Forall₂ (fun k k' => k'.1 = k.1 ∧ ∀ x : BookcaseHit,
      k'.2.Holds x ↔ k.2.Holds x ∧ InAll (prev :: it :: rest) x.bookcase) (prev :: it :: rest)
      ((prev.1, (it.2.filterBoth prev.2).2) :: it' :: rest') := by
    refine .cons ⟨rfl, fun x => ?_⟩ (.cons ⟨hfirst.1, fun x => ?_⟩
      (hothers.imp fun k k' hk => ⟨hk.1, fun x => ?_⟩))
    · rw [hall, inAll_pair, (holds_filterBoth hit hprev).2]
      exact ⟨fun hx => ⟨hx.1, hx.1.hasBookcase, hx.2⟩, fun hx => ⟨hx.1, hx.2.2⟩⟩
    · rw [hall, hfirst.2, hpair, inAll_pair, (holds_filterBoth hit hprev).1]
      exact ⟨fun hx => ⟨hx.1.1, hx.2⟩, fun hx => ⟨⟨hx.1, hx.2.1⟩, hx.2⟩⟩
    · rw [hall, hk.2, hpair]
  refine ⟨hhits, iff_of_true rfl fun k' hk' => ?_⟩
  -- A bookcase that all lists have stays in each of them.
  have hstays : ∀ {d d' : TermDict}, (∀ k ∈ d, k ∈ prev :: it :: rest) →
      List.Forall₂ (fun k k' => k'.1 = k.1 ∧ ∀ x : BookcaseHit,
        k'.2.Holds x ↔ k.2.Holds x ∧ InAll (prev :: it :: rest) x.bookcase) d d' →
      ∀ k' ∈ d', ∃ x, k'.2.Holds x := by
    intro d d' hd hforall
    induction hforall with
    | nil => exact fun _ hmem => by cases hmem
    | @cons k k' d d' hk _ ih =>
      intro k'' hk''
      rcases List.mem_cons.mp hk'' with rfl | hk''
      · have hin := (hall bookcase).mpr hcommon
        obtain ⟨m, hm⟩ := hin k (hd k List.mem_cons_self)
        exact ⟨_, (hk.2 _).mpr ⟨hm, hin⟩⟩
      · exact ih (fun k hk => hd k (List.mem_cons_of_mem _ hk)) k'' hk''
  exact hstays (fun k hk => hk) hhits k' hk'

/-- Where the first two lists have nothing in common, the others are left as they are. -/
theorem keepsCommon_iff_of_disjoint (hprev : prev.2.NoneEmpty) (hit : it.2.NoneEmpty)
    (hnone : ∀ bookcase, ¬InAll [prev, it] bookcase) :
    KeepsCommon (prev :: it :: rest) (filterFrom prev (it :: rest)).1
      (filterFrom prev (it :: rest)).2 ↔ ∀ k ∈ rest, ∀ hit, ¬k.2.Holds hit := by
  have hnotAll : ∀ b, ¬InAll (prev :: it :: rest) b := by
    intro b hb
    rw [inAll_cons, inAll_cons] at hb
    exact hnone b (inAll_pair.mpr ⟨hb.1, hb.2.1⟩)
  have hempty : ∀ x, ¬(it.2.filterBoth prev.2).1.Holds x ∧ ¬(it.2.filterBoth prev.2).2.Holds x := by
    intro x
    rw [(holds_filterBoth hit hprev).1, (holds_filterBoth hit hprev).2]
    exact ⟨fun hx => hnone _ (inAll_pair.mpr ⟨hx.2, hx.1.hasBookcase⟩),
      fun hx => hnone _ (inAll_pair.mpr ⟨hx.1.hasBookcase, hx.2⟩)⟩
  rw [filterFrom_cons_of_disjoint hprev hit hnone]
  constructor
  · rintro ⟨hhits, -⟩ k hk x hx
    cases hhits with
    | cons _ hhits =>
      cases hhits with
      | cons _ hrest =>
        have hsame := List.forall₂_same.mp hrest k hk
        exact hnotAll _ ((hsame.2 x).mp hx).2
  · intro hrest
    refine ⟨.cons ⟨rfl, fun x => ?_⟩ (.cons ⟨rfl, fun x => ?_⟩
      (List.forall₂_same.mpr fun k hk => ⟨rfl, fun x => ?_⟩)), ?_⟩
    · exact iff_of_false (hempty x).2 fun hx => hnotAll _ hx.2
    · exact iff_of_false (hempty x).1 fun hx => hnotAll _ hx.2
    · exact iff_of_false (hrest k hk x) fun hx => hnotAll _ hx.2
    · refine iff_of_false Bool.false_ne_true fun hall => ?_
      obtain ⟨x, hx⟩ := hall _ List.mem_cons_self
      exact (hempty x).2 hx

/-- **The pass keeps the common bookcases** exactly where it suffices. -/
theorem keepsCommon_iff {dict : TermDict} (h : ∀ it ∈ dict, it.2.NoneEmpty) :
    KeepsCommon dict (localFilterHitListBookcases dict).1 (localFilterHitListBookcases dict).2 ↔
      PassSuffices dict := by
  cases dict with
  | nil => exact iff_of_true ⟨.nil, by simp [localFilterHitListBookcases]⟩ trivial
  | cons prev dict =>
    obtain ⟨hprev, hdict⟩ := List.forall_mem_cons.mp h
    cases dict with
    | nil =>
      constructor
      · intro hkeeps
        exact (hkeeps.result.mp rfl) prev List.mem_cons_self
      · intro hsome
        refine ⟨.cons ⟨rfl, fun hit => ?_⟩ .nil, ?_⟩
        · rw [inAll_cons]
          exact ⟨fun hhit => ⟨hhit, hhit.hasBookcase, inAll_nil _⟩, And.left⟩
        · exact ⟨fun _ => List.forall_mem_singleton.mpr hsome, fun _ => rfl⟩
    | cons it rest =>
      obtain ⟨hit, hrest⟩ := List.forall_mem_cons.mp hdict
      by_cases hcommon : ∃ bookcase, InAll [prev, it] bookcase
      · obtain ⟨bookcase, hbookcase⟩ := hcommon
        constructor
        · exact fun hkeeps => Or.inl ⟨⟨bookcase, hbookcase⟩,
            fun b hb => hkeeps.inAll_rest hprev hit hb⟩
        · rintro (⟨-, hsub⟩ | ⟨hnone, -⟩)
          · exact keepsCommon_of_common hprev hit hrest hbookcase hsub
          · exact absurd hbookcase (hnone bookcase)
      · have hnone := not_exists.mp hcommon
        refine (keepsCommon_iff_of_disjoint hprev hit hnone).trans ?_
        constructor
        · exact fun hempty => Or.inr ⟨hnone, hempty⟩
        · rintro (⟨hsome, -⟩ | ⟨-, hempty⟩)
          · exact absurd hsome hcommon
          · exact hempty

end Pass

/-! ## 3. The bookcases of the monads of a token -/

/-- The loop of `merge_with_bookcases`; what is left of the two lists is where its iterators
stand.  Where neither comparison holds, the assertion does. -/
def mergeLoop (hitList : BookcaseHitList) : List Int → List (Int × Int) → BookcaseHitList
  | [], _ => hitList
  | _, [] => hitList
  | tokenM :: tokens, (fmBookcase, lmBookcase) :: bookcases =>
    if tokenM < fmBookcase then mergeLoop hitList tokens ((fmBookcase, lmBookcase) :: bookcases)
    else if lmBookcase < tokenM then mergeLoop hitList (tokenM :: tokens) bookcases
    else
      mergeLoop (hitList.addHit ⟨toLex (fmBookcase, lmBookcase), tokenM⟩) tokens
        ((fmBookcase, lmBookcase) :: bookcases)
  termination_by tokens bookcases => tokens.length + bookcases.length

/-- `TokenMonadList::merge_with_bookcases`; the bookcases are a map from first to last monads. -/
def mergeWithBookcases (tokens : List Int) (bookcases : OrdMap Int Int)
    (hitList : BookcaseHitList) : BookcaseHitList :=
  mergeLoop hitList.clearHitMap tokens bookcases.entries

/-- Bookcases have monads, and no two have one in common. -/
structure Separate (bookcases : List (Int × Int)) : Prop where
  nonempty : ∀ b ∈ bookcases, b.1 ≤ b.2
  disjoint : bookcases.Pairwise fun b b' => Disjoint (Set.Icc b.1 b.2) (Set.Icc b'.1 b'.2)

/-- Separate bookcases in the order of their first monads lie one behind the other. -/
theorem Separate.pairwise_lt {bookcases : OrdMap Int Int} (h : Separate bookcases.entries) :
    bookcases.entries.Pairwise fun b b' => b.2 < b'.1 := by
  have hand := bookcases.sorted.and h.disjoint
  refine hand.imp_of_mem fun {b b'} _ hb' hbb' => ?_
  by_contra hle
  exact Set.disjoint_left.mp hbb'.2 ⟨le_of_lt hbb'.1, not_lt.mp hle⟩ ⟨le_refl _, h.nonempty b' hb'⟩

/-- What the loop adds.  By induction as it runs: a token in front of a bookcase lies in front of
the later ones too, and a bookcase that ends in front of a token ends in front of the later
tokens. -/
theorem holds_mergeLoop {hitList : BookcaseHitList} {tokens : List Int}
    {bookcases : List (Int × Int)} (htokens : tokens.Pairwise (· ≤ ·))
    (hordered : bookcases.Pairwise fun b b' => b.1 < b'.1 ∧ b.2 < b'.1) {hit : BookcaseHit} :
    (mergeLoop hitList tokens bookcases).Holds hit ↔ hitList.Holds hit ∨
      ∃ b ∈ bookcases, hit.bookcase = toLex b ∧ hit.hitFm ∈ tokens ∧
        b.1 ≤ hit.hitFm ∧ hit.hitFm ≤ b.2 := by
  fun_induction mergeLoop hitList tokens bookcases with
  | case1 => simp
  | case2 => simp
  | case3 hitList tokenM tokens fm lm bookcases hlt ih =>
    rw [ih (List.pairwise_cons.mp htokens).2 hordered]
    refine or_congr_right (exists_congr fun b => and_congr_right fun hb => and_congr_right fun _ =>
      ⟨fun h => ⟨List.mem_cons_of_mem _ h.1, h.2⟩, fun h => ⟨?_, h.2⟩⟩)
    rcases List.mem_cons.mp h.1 with heq | htoken
    · have hfirst : fm ≤ b.1 := by
        rcases List.mem_cons.mp hb with rfl | hb
        · exact le_refl _
        · exact le_of_lt ((List.pairwise_cons.mp hordered).1 b hb).1
      omega
    · exact htoken
  | case4 hitList tokenM tokens fm lm bookcases _ hlt ih =>
    rw [ih htokens (List.pairwise_cons.mp hordered).2]
    refine or_congr_right ⟨fun ⟨b, hb, h⟩ => ⟨b, List.mem_cons_of_mem _ hb, h⟩, ?_⟩
    rintro ⟨b, hb, hbookcase, htoken, hle, hge⟩
    rcases List.mem_cons.mp hb with rfl | hb
    · have hlater : tokenM ≤ hit.hitFm := by
        rcases List.mem_cons.mp htoken with heq | htoken
        · exact heq ▸ le_refl _
        · exact (List.pairwise_cons.mp htokens).1 _ htoken
      exact absurd hge (by dsimp only; omega)
    · exact ⟨b, hb, hbookcase, htoken, hle, hge⟩
  | case5 hitList tokenM tokens fm lm bookcases hfm hlm ih =>
    rw [ih (List.pairwise_cons.mp htokens).2 hordered]
    have hadd : (hitList.addHit ⟨toLex (fm, lm), tokenM⟩).Holds hit ↔
        hitList.Holds hit ∨ hit = ⟨toLex (fm, lm), tokenM⟩ := by
      have hone := @holds_addHits hitList [⟨toLex (fm, lm), tokenM⟩] hit
      rw [List.mem_singleton] at hone
      exact hone
    rw [hadd, or_assoc]
    refine or_congr_right ?_
    constructor
    · rintro (rfl | ⟨b, hb, hbookcase, htoken, hin⟩)
      · exact ⟨(fm, lm), List.mem_cons_self, rfl, List.mem_cons_self, not_lt.mp hfm,
          not_lt.mp hlm⟩
      · exact ⟨b, hb, hbookcase, List.mem_cons_of_mem _ htoken, hin⟩
    · rintro ⟨b, hb, hbookcase, htoken, hle, hge⟩
      rcases List.mem_cons.mp htoken with heq | htoken
      · rcases List.mem_cons.mp hb with rfl | hb
        · refine Or.inl ?_
          obtain ⟨hitBookcase, hitFm⟩ := hit
          cases hbookcase
          cases heq
          rfl
        · have hbehind := (List.pairwise_cons.mp hordered).1 b hb
          exact absurd hle (by dsimp only at hbehind; omega)
      · exact Or.inr ⟨b, hb, hbookcase, htoken, hle, hge⟩

/-- The list has exactly the pairs of a bookcase and a monad of a token inside it. -/
def HasInside (tokens : List Int) (bookcases : OrdMap Int Int) (l : BookcaseHitList) : Prop :=
  ∀ fm lm m, l.Holds ⟨toLex (fm, lm), m⟩ ↔
    (fm, lm) ∈ bookcases.entries ∧ m ∈ tokens ∧ fm ≤ m ∧ m ≤ lm

theorem hasInside_mergeWithBookcases {tokens : List Int} {bookcases : OrdMap Int Int}
    (htokens : tokens.Pairwise (· ≤ ·)) (hseparate : Separate bookcases.entries)
    (hitList : BookcaseHitList) :
    HasInside tokens bookcases (mergeWithBookcases tokens bookcases hitList) := by
  intro fm lm m
  rw [mergeWithBookcases,
    holds_mergeLoop htokens (bookcases.sorted.and hseparate.pairwise_lt)]
  constructor
  · rintro (h | ⟨b, hb, hbookcase, htoken, hle, hge⟩)
    · exact absurd h (not_holds_clearHitMap _ _)
    · have heq : (fm, lm) = b := toLex.injective hbookcase
      subst heq
      exact ⟨hb, htoken, hle, hge⟩
  · rintro ⟨hb, htoken, hin⟩
    exact Or.inr ⟨(fm, lm), hb, rfl, htoken, hin⟩

/-- **Common bookcases and bookcases of tokens**: the one are kept exactly where one pass
suffices, and the other are always found. -/
theorem keepsCommon_and_hasInside_iff {dict : TermDict} (h : ∀ it ∈ dict, it.2.NoneEmpty)
    {tokens : List Int} (htokens : tokens.Pairwise (· ≤ ·)) {bookcases : OrdMap Int Int}
    (hseparate : Separate bookcases.entries) (hitList : BookcaseHitList) :
    (KeepsCommon dict (localFilterHitListBookcases dict).1 (localFilterHitListBookcases dict).2 ∧
      HasInside tokens bookcases (mergeWithBookcases tokens bookcases hitList)) ↔
      PassSuffices dict := by
  rw [keepsCommon_iff h]
  exact and_iff_left (hasInside_mergeWithBookcases htokens hseparate hitList)

/-- A list with a hit at the beginning of each of some bookcases of one monad. -/
def single (ms : List Int) : BookcaseHitList := new.addHits (ms.map fun m => ⟨toLex (m, m), m⟩)

theorem noneEmpty_single (ms : List Int) : (single ms).NoneEmpty :=
  noneEmpty_addHits noneEmpty_new _

theorem hasBookcase_single {ms : List Int} {m : Int} :
    (single ms).HasBookcase (toLex (m, m)) ↔ m ∈ ms := by
  unfold single HasBookcase
  simp only [holds_addHits]
  constructor
  · rintro ⟨x, h | h⟩
    · obtain ⟨s, hs, -⟩ := h
      cases hs
    · obtain ⟨m', hm', heq⟩ := List.mem_map.mp h
      have hbookcase : toLex (m', m') = toLex (m, m) := congrArg BookcaseHit.bookcase heq
      have hpair : (m', m') = (m, m) := toLex.injective hbookcase
      cases hpair
      exact hm'
  · exact fun hm => ⟨m, Or.inr (List.mem_map.mpr ⟨m, hm, rfl⟩)⟩

/-- Two terms, of which both are in the second of two bookcases. -/
theorem keepsCommon_and_hasInside_two :
    let dict : TermDict := [([97], single [1, 2]), ([98], single [2])]
    KeepsCommon dict (localFilterHitListBookcases dict).1 (localFilterHitListBookcases dict).2 ∧
      HasInside [2, 3] (OrdMap.empty.insert 2 2)
        (mergeWithBookcases [2, 3] (OrdMap.empty.insert 2 2) new) := by
  refine (keepsCommon_and_hasInside_iff (by simp [noneEmpty_single]) (by simp)
    ⟨fun b hb => ?_, ?_⟩ new).mpr (Or.inl ⟨⟨toLex (2, 2), ?_⟩, fun _ _ => inAll_nil _⟩)
  · obtain rfl := List.mem_singleton.mp hb
    exact le_refl _
  · exact List.pairwise_singleton _ _
  · rw [inAll_pair]
    simp [hasBookcase_single]

/-- Three terms, of which the third is in the first bookcase only. -/
theorem thirdTerm_not_keepsCommon :
    let dict : TermDict :=
      [([97], single [1, 2]), ([98], single [1, 2]), ([99], single [1])]
    ¬KeepsCommon dict (localFilterHitListBookcases dict).1
      (localFilterHitListBookcases dict).2 := by
  intro dict
  rw [keepsCommon_iff (by simp [dict, noneEmpty_single])]
  have hcommon : InAll [([97], single [1, 2]), ([98], single [1, 2])] (toLex (2, 2)) := by
    rw [inAll_pair]
    simp [hasBookcase_single]
  rintro (⟨-, hsub⟩ | ⟨hnone, -⟩)
  · have hthird := (inAll_cons.mp (hsub _ hcommon)).1
    rw [hasBookcase_single] at hthird
    simp at hthird
  · exact hnone _ hcommon

end FTS3

/-! ## 4. Hits in range of each other -/

namespace BookcaseHitList

/-- `merge_range` adds both ends of every pair. -/
theorem holds_mergeRange {l other : BookcaseHitList} {tokenRange : Int} {directionMatters : Bool}
    {hit : BookcaseHit} :
    (l.mergeRange other tokenRange directionMatters).Holds hit ↔
      ∃ myM otherM, l.Holds ⟨hit.bookcase, myM⟩ ∧ other.Holds ⟨hit.bookcase, otherM⟩ ∧
        doIt tokenRange directionMatters myM otherM = true ∧
        (hit.hitFm = myM ∨ hit.hitFm = otherM) := by
  rw [mergeRange_eq, holds_addHits, or_iff_right (not_holds_clearHitMap _ _), rangeHits,
    List.mem_flatMap]
  constructor
  · rintro ⟨e, he, hin⟩
    cases hfind : l.find e.1 with
    | none => simp [hfind] at hin
    | some mine =>
      simp only [hfind, List.mem_flatMap] at hin
      obtain ⟨otherM, hother, myM, hmy, hin⟩ := hin
      split at hin
      · rename_i hdoIt
        have hmine := find_eq_some_iff.mp hfind
        simp only [List.mem_cons, List.not_mem_nil, or_false] at hin
        rcases hin with rfl | rfl
        · exact ⟨myM, otherM, ⟨mine, hmine, hmy⟩, ⟨e.2, he, hother⟩, hdoIt, Or.inl rfl⟩
        · exact ⟨myM, otherM, ⟨mine, hmine, hmy⟩, ⟨e.2, he, hother⟩, hdoIt, Or.inr rfl⟩
      · cases hin
  · rintro ⟨myM, otherM, ⟨mine, hmine, hmy⟩, ⟨others, hothers, hother⟩, hdoIt, hm⟩
    refine ⟨(hit.bookcase, others), hothers, ?_⟩
    simp only [find_eq_some_iff.mpr hmine, List.mem_flatMap]
    refine ⟨otherM, hother, myM, hmy, ?_⟩
    rw [if_pos hdoIt]
    obtain ⟨bookcase, m⟩ := hit
    rcases hm with rfl | rfl
    · simp
    · simp

theorem clearHitMap_addHits (l : BookcaseHitList) (hits : List BookcaseHit) :
    l.clearHitMap.addHits hits =
      { l with
        hits := (l.clearHitMap.addHits hits).hits
        hitCount := (l.clearHitMap.addHits hits).hitCount } := by
  have hkeep : ∀ (hits : List BookcaseHit) (k : BookcaseHitList),
      k.addHits hits =
        { k with hits := (k.addHits hits).hits, hitCount := (k.addHits hits).hitCount } := by
    intro hits
    induction hits with
    | nil => exact fun _ => rfl
    | cons hit hits ih => exact fun k => ih (k.addHit hit)
  exact hkeep hits l.clearHitMap

/-- What a range asks of two monads. -/
def InRange (tokenRange : Int) (directionMatters : Bool) (myM otherM : Int) : Prop :=
  if directionMatters then
    otherM - myM ≠ 0 ∧ (otherM - myM).sign = tokenRange.sign ∧ |otherM - myM| ≤ |tokenRange|
  else |otherM - myM| ≤ |tokenRange|

/-- The new list has the hits at both ends of the pairs in range, and is otherwise the old one. -/
structure KeepsInRange (l other : BookcaseHitList) (tokenRange : Int) (directionMatters : Bool)
    (l' : BookcaseHitList) : Prop where
  hits : ∀ bookcase m, l'.Holds ⟨bookcase, m⟩ ↔ ∃ myM otherM,
    l.Holds ⟨bookcase, myM⟩ ∧ other.Holds ⟨bookcase, otherM⟩ ∧
      InRange tokenRange directionMatters myM otherM ∧ (m = myM ∨ m = otherM)
  others : l' = { l with hits := l'.hits, hitCount := l'.hitCount }

/-- The two lists have monads in one bookcase that are related so. -/
def SomePair (l other : BookcaseHitList) (related : Int → Int → Prop) : Prop :=
  ∃ bookcase myM otherM, l.Holds ⟨bookcase, myM⟩ ∧ other.Holds ⟨bookcase, otherM⟩ ∧
    related myM otherM

/-- Where the range is compared rightly: a range that is not positive finds no pair, unless a
direction does not matter, and zero finds the monads of both lists. -/
def RangeSuffices (l other : BookcaseHitList) (tokenRange : Int) (directionMatters : Bool) : Prop :=
  directionMatters = true →
    (tokenRange < 0 → ¬SomePair l other fun myM otherM =>
      otherM < myM ∧ myM - otherM ≤ -tokenRange) ∧
    (tokenRange = 0 → ¬SomePair l other fun myM otherM => otherM = myM)

/-- What the code asks, and what it should. -/
theorem doIt_iff_inRange {tokenRange : Int} {directionMatters : Bool}
    (h : directionMatters = true → 0 < tokenRange) {myM otherM : Int} :
    doIt tokenRange directionMatters myM otherM = true ↔
      InRange tokenRange directionMatters myM otherM := by
  unfold doIt InRange
  cases directionMatters with
  | false => simp
  | true =>
    have hpos := h rfl
    rw [abs_of_pos hpos]
    simp only [if_true, decide_eq_true_eq, ne_eq]
    refine ⟨fun hdo => ⟨fun hzero => ?_, hdo⟩, And.right⟩
    rw [hzero, Int.sign_zero, Int.sign_eq_one_of_pos hpos] at hdo
    exact absurd hdo.1 (by decide)

/-- A direction is not found backwards. -/
theorem doIt_of_neg {tokenRange : Int} (h : tokenRange < 0) (myM otherM : Int) :
    doIt tokenRange true myM otherM = false := by
  unfold doIt
  simp only [if_true, decide_eq_false_iff_not, not_and, not_le]
  exact fun _ => lt_of_lt_of_le h (abs_nonneg _)

theorem inRange_of_neg_iff {tokenRange : Int} (h : tokenRange < 0) {myM otherM : Int} :
    InRange tokenRange true myM otherM ↔ otherM < myM ∧ myM - otherM ≤ -tokenRange := by
  unfold InRange
  rw [if_pos rfl, Int.sign_eq_neg_one_of_neg h, abs_of_neg h, Int.sign_eq_neg_one_iff_neg]
  constructor
  · rintro ⟨-, hneg, habs⟩
    rw [abs_of_neg hneg] at habs
    omega
  · rintro ⟨hlt, hle⟩
    have hneg : otherM - myM < 0 := by omega
    rw [abs_of_neg hneg]
    omega

theorem doIt_zero_iff {myM otherM : Int} : doIt 0 true myM otherM = true ↔ otherM = myM := by
  unfold doIt
  simp only [if_true, decide_eq_true_eq, Int.sign_zero, Int.sign_eq_zero_iff_zero, abs_nonpos_iff]
  omega

theorem not_inRange_zero (myM otherM : Int) : ¬InRange 0 true myM otherM := by
  unfold InRange
  rw [if_pos rfl, Int.sign_zero, Int.sign_eq_zero_iff_zero]
  exact fun h => h.1 h.2.1

end BookcaseHitList

end Emdros
