/-
# Hits in bookcases (`BookcaseHitList` in `harvest_fts.h`, `harvest_fts.cpp`)

A hit list maps bookcases to the monads of their hits, keeps the number of hits beside the map, and
is read page by page.  The number is raised by every `addHit`, also by one whose hit is there
already.

The operations build their lists with `addHit`.  `counted_addHits_iff` says when the number of a
list that is added to stays right, `described_iff_good` that pages are right when the number is,
and `described_iff_fresh` that in a run all lists stay so as long as no step adds a hit twice.
-/
import Emdros.Base.OrdMap
import Emdros.Base.Run

namespace Emdros

/-! ## 1. Lists -/

/-- First and last monad of a bookcase, in the order of `std::pair`. -/
abbrev Bookcase := Int ×ₗ Int

/-- `std::set<monad_m>`. -/
abbrev HitSet := OrdMap Int Unit

/-- `class BookcaseHit`. -/
structure BookcaseHit where
  bookcase : Bookcase
  hitFm : Int
  deriving DecidableEq

/-- `class BookcaseHitList`. -/
structure BookcaseHitList where
  hits : OrdMap Bookcase HitSet
  hitCount : Int
  maxHitsPerPage : Int
  tokens : OrdMap Int (List UInt8)
  monadsBeforeHitWord : Int
  monadsAfterHitWord : Int
  bookcaseLm2titleMap : OrdMap Int (List UInt8)

/-- The monads of a set, from `begin()` to `end()`. -/
def HitSet.monads (s : HitSet) : List Int := s.entries.map (·.1)

namespace BookcaseHitList

/-- The constructor.  The monads before and after the hit word are not initialised. -/
def new : BookcaseHitList := ⟨.empty, 0, 10, .empty, 0, 0, .empty⟩

def setMaxHitsPerPage (n : Int) (l : BookcaseHitList) : BookcaseHitList :=
  { l with maxHitsPerPage := n }

def clearHitMap (l : BookcaseHitList) : BookcaseHitList := { l with hits := .empty, hitCount := 0 }

/-- `m_hits.find(bookcase)`, as the set that is found. -/
def find (l : BookcaseHitList) (bookcase : Bookcase) : Option HitSet :=
  (l.hits.entries.find? fun e => e.1 = bookcase).map (·.2)

def addHit (l : BookcaseHitList) (hit : BookcaseHit) : BookcaseHitList :=
  let hits := l.hits.insert hit.bookcase .empty
  { l with
    hits := hits.modify hit.bookcase fun s => s.insert hit.hitFm ()
    hitCount := l.hitCount + 1 }

def merge (l other : BookcaseHitList) : BookcaseHitList :=
  other.hits.entries.foldl (fun l e => (HitSet.monads e.2).foldl (fun l m => l.addHit ⟨e.1, m⟩) l) l

/-- `bDoIt` of `merge_range`. -/
def doIt (tokenRange : Int) (directionMatters : Bool) (myM otherM : Int) : Bool :=
  let difference := otherM - myM
  if directionMatters then difference.sign = tokenRange.sign ∧ |difference| ≤ tokenRange
  else |difference| ≤ |tokenRange|

def mergeRange (l other : BookcaseHitList) (tokenRange : Int) (directionMatters : Bool) :
    BookcaseHitList :=
  other.hits.entries.foldl (fun result e =>
    match l.find e.1 with
    | none => result
    | some mine =>
      (HitSet.monads e.2).foldl (fun result otherM =>
        mine.monads.foldl (fun result myM =>
          if doIt tokenRange directionMatters myM otherM then
            (result.addHit ⟨e.1, myM⟩).addHit ⟨e.1, otherM⟩
          else result) result) result) l.clearHitMap

/-- `filter(hl1, hl2)`, as the new `hl1`. -/
def filter (hl1 hl2 : BookcaseHitList) : BookcaseHitList :=
  hl1.hits.entries.foldl (fun result e =>
    if (hl2.find e.1).isSome then
      (HitSet.monads e.2).foldl (fun result m => result.addHit ⟨e.1, m⟩) result
    else result) hl1.clearHitMap

def getHitCount (l : BookcaseHitList) : Int := l.hitCount

def getBookcaseCount (l : BookcaseHitList) : Nat := l.hits.size

/-- Is there a monad of the set near `m`? -/
def isNear (others : HitSet) (bookcase : Bookcase) (backward forward m : Int) : Bool :=
  let startM := max (m - backward) bookcase.1
  let endM := min (m + forward) bookcase.2
  match others.monads.find? fun b => startM ≤ b with
  | none => false
  | some lowerBound => lowerBound ≤ endM

def removeThoseNotPresentInOther (l other : BookcaseHitList) (backward forward : Int) :
    BookcaseHitList :=
  l.hits.entries.foldl (fun newHitList e =>
    match other.find e.1 with
    | none => newHitList
    | some others =>
      (HitSet.monads e.2).foldl (fun newHitList m =>
        if isNear others e.1 backward forward m then newHitList.addHit ⟨e.1, m⟩ else newHitList)
        newHitList) new

/-- The access to the first monad of an empty set is `none`. -/
def removeAllButFirstHitInEachBookcase (l : BookcaseHitList) : Option BookcaseHitList :=
  l.hits.entries.foldlM (fun newHitList e =>
    (HitSet.monads e.2).head?.map fun m => newHitList.addHit ⟨e.1, m⟩) new

/-! ## 2. Pages -/

/-- `C` integer division truncates. -/
def getPageCount (l : BookcaseHitList) : Int :=
  if l.maxHitsPerPage ≤ 0 then 1
  else if l.hitCount = 0 then 0
  else
    let remainder := l.hitCount.tmod l.maxHitsPerPage
    let pageCount := l.hitCount.tdiv l.maxHitsPerPage
    if remainder ≠ 0 then pageCount + 1 else pageCount

/-- `class BookcaseHitListConstIterator`; its iterators into the map and into a set are what is
left from there on. -/
structure ConstIterator where
  bookcases : List (Bookcase × HitSet)
  fms : List Int
  maxVisitCount : Int

namespace ConstIterator

def hasNext (it : ConstIterator) : Bool := !it.bookcases.isEmpty && it.maxVisitCount ≠ 0

/-- Where the iterator into a set goes: to the first monad of the next bookcase, if there is one. -/
def firstFms (fms : List Int) : List (Bookcase × HitSet) → List Int
  | [] => fms
  | e :: _ => HitSet.monads e.2

/-- `next`; the failed assertion of `current`, and an access at the end of a set, are `none`. -/
def next (it : ConstIterator) : Option (BookcaseHit × ConstIterator) :=
  if it.hasNext then
    match it.bookcases, it.fms with
    | e :: bookcases, m :: fms =>
      let maxVisitCount :=
        if it.maxVisitCount > 0 then it.maxVisitCount - 1 else it.maxVisitCount
      if fms.isEmpty then some (⟨e.1, m⟩, ⟨bookcases, firstFms fms bookcases, maxVisitCount⟩)
      else some (⟨e.1, m⟩, ⟨e :: bookcases, fms, maxVisitCount⟩)
    | _, _ => none
  else none

/-- `while (hasNext()) next()`, for at most so many hits. -/
def visit : Nat → ConstIterator → Option (List BookcaseHit × ConstIterator)
  | 0, it => if it.hasNext then none else some ([], it)
  | fuel + 1, it =>
    if it.hasNext then
      it.next.bind fun r => (visit fuel r.2).map fun rest => (r.1 :: rest.1, rest.2)
    else some ([], it)

end ConstIterator

/-- The hits, bookcase by bookcase. -/
def hitsOf (entries : List (Bookcase × HitSet)) : List BookcaseHit :=
  entries.flatMap fun e => (HitSet.monads e.2).map fun m => ⟨e.1, m⟩

def held (l : BookcaseHitList) : List BookcaseHit := hitsOf l.hits.entries

/-- `BookcaseHitListConstIterator(this)`, with a count of visits. -/
def start (l : BookcaseHitList) (maxVisitCount : Int) : ConstIterator :=
  ⟨l.hits.entries, ConstIterator.firstFms [] l.hits.entries, maxVisitCount⟩

/-- `BookcaseHitListConstIterator(this, OFFSET, LIMIT)`. -/
def startAt (l : BookcaseHitList) (offset limit : Int) : Option ConstIterator :=
  ((l.start offset).visit l.held.length).map fun r => { r.2 with maxVisitCount := limit }

/-- `const_iterator(page_number)`. -/
def constIterator (l : BookcaseHitList) (pageNumber : Int) : Option ConstIterator :=
  if l.maxHitsPerPage ≤ 0 then some (l.start (-1))
  else if pageNumber < 1 then some (l.start (-1))
  else l.startAt ((pageNumber - 1) * l.maxHitsPerPage) l.maxHitsPerPage

/-- All hits that an iterator visits. -/
def readAll (l : BookcaseHitList) (it : ConstIterator) : Option (List BookcaseHit) :=
  (it.visit l.held.length).map (·.1)

/-- What is read with `const_iterator(1)`, ..., `const_iterator(getPageCount())`. -/
def pages (l : BookcaseHitList) : Option (List (List BookcaseHit)) :=
  (List.range l.getPageCount.toNat).mapM fun i : Nat =>
    (l.constIterator (i + 1)).bind l.readAll

/-! ## 3. What a list holds -/

/-- The hit is in the set of its bookcase. -/
def Holds (l : BookcaseHitList) (hit : BookcaseHit) : Prop :=
  ∃ s, (hit.bookcase, s) ∈ l.hits.entries ∧ hit.hitFm ∈ HitSet.monads s

theorem mem_hitsOf {entries : List (Bookcase × HitSet)} {hit : BookcaseHit} :
    hit ∈ hitsOf entries ↔ ∃ s, (hit.bookcase, s) ∈ entries ∧ hit.hitFm ∈ HitSet.monads s := by
  unfold hitsOf
  rw [List.mem_flatMap]
  constructor
  · rintro ⟨⟨b, s⟩, he, hm⟩
    obtain ⟨m, hm', rfl⟩ := List.mem_map.mp hm
    exact ⟨s, he, hm'⟩
  · rintro ⟨s, he, hm⟩
    exact ⟨_, he, List.mem_map.mpr ⟨hit.hitFm, hm, rfl⟩⟩

theorem mem_held {l : BookcaseHitList} {hit : BookcaseHit} : hit ∈ l.held ↔ l.Holds hit :=
  mem_hitsOf

theorem hitsOf_append (es es' : List (Bookcase × HitSet)) :
    hitsOf (es ++ es') = hitsOf es ++ hitsOf es' := List.flatMap_append

theorem hitsOf_cons (e : Bookcase × HitSet) (es : List (Bookcase × HitSet)) :
    hitsOf (e :: es) = (HitSet.monads e.2).map (fun m => ⟨e.1, m⟩) ++ hitsOf es := List.flatMap_cons

theorem monads_nodup (s : HitSet) : s.monads.Nodup := by
  rw [HitSet.monads, List.Nodup, List.pairwise_map]
  exact s.sorted.imp fun h => ne_of_lt h

/-- **No hit is held twice.** -/
theorem held_nodup (l : BookcaseHitList) : l.held.Nodup := by
  rw [held, hitsOf, List.nodup_flatMap]
  refine ⟨fun e _ => (monads_nodup e.2).map fun m m' h => congrArg BookcaseHit.hitFm h, ?_⟩
  refine l.hits.sorted.imp fun {a b} hab => ?_
  intro hit ha hb
  obtain ⟨m, -, rfl⟩ := List.mem_map.mp ha
  obtain ⟨m', -, heq⟩ := List.mem_map.mp hb
  exact absurd (congrArg BookcaseHit.bookcase heq) (ne_of_gt hab)

/-- The number of hits. -/
theorem ncard_holds (l : BookcaseHitList) :
    ({hit | l.Holds hit} : Set BookcaseHit).ncard = l.held.length := by
  have hset : ({hit | l.Holds hit} : Set BookcaseHit) = ↑l.held.toFinset := by
    ext hit
    simp [mem_held]
  rw [hset, Set.ncard_coe_finset, List.toFinset_card_of_nodup l.held_nodup]

/-- No bookcase has an empty set. -/
def NoneEmpty (l : BookcaseHitList) : Prop := ∀ e ∈ l.hits.entries, HitSet.monads e.2 ≠ []

section AddHit

variable {l : BookcaseHitList} {hit : BookcaseHit}

/-- A monad that is in a set is not added again; another is added at its place. -/
theorem monads_insert (s : HitSet) (m : Int) :
    (m ∈ s.monads ∧ HitSet.monads (s.insert m ()) = s.monads) ∨
      m ∉ s.monads ∧ (HitSet.monads (s.insert m ())).Perm (m :: s.monads) := by
  rcases s.split_at_key m with ⟨pre, u, post, h⟩ | ⟨pre, post, h, hpre, hpost⟩
  · refine Or.inl ⟨?_, ?_⟩
    · rw [HitSet.monads, h]
      simp
    · rw [HitSet.monads, OrdMap.insert_at h, HitSet.monads]
  · refine Or.inr ⟨?_, ?_⟩
    · intro hm
      obtain ⟨e, he, rfl⟩ := List.mem_map.mp hm
      rw [h] at he
      rcases List.mem_append.mp he with he | he
      · exact absurd (hpre e he) (lt_irrefl _)
      · exact absurd (hpost e he) (lt_irrefl _)
    · rw [HitSet.monads, OrdMap.insert_between h hpre hpost, HitSet.monads, h, List.map_append,
        List.map_append, List.map_cons]
      exact List.perm_middle

theorem monads_insert_ne_nil (s : HitSet) (m : Int) : HitSet.monads (s.insert m ()) ≠ [] := by
  rcases monads_insert s m with ⟨hm, h⟩ | ⟨-, h⟩
  · rw [h]
    exact List.ne_nil_of_mem hm
  · exact fun hnil => absurd (h.symm.subset List.mem_cons_self) (hnil ▸ List.not_mem_nil)

/-- What `addHit` changes is the set of one bookcase, which was empty if the bookcase was not
there. -/
theorem addHit_entries (l : BookcaseHitList) (hit : BookcaseHit) :
    ∃ pre s post, (l.addHit hit).hits.entries =
        pre ++ (hit.bookcase, s.insert hit.hitFm ()) :: post ∧
      l.held = hitsOf pre ++ ((HitSet.monads s).map (fun m => ⟨hit.bookcase, m⟩) ++ hitsOf post) ∧
      ∀ e ∈ pre ++ post, e ∈ l.hits.entries ∧ e.1 ≠ hit.bookcase := by
  rcases l.hits.split_at_key hit.bookcase with ⟨pre, s, post, h⟩ | ⟨pre, post, h, hpre, hpost⟩
  · refine ⟨pre, s, post, OrdMap.modify_at ((OrdMap.insert_at h .empty).trans h) _, ?_, ?_⟩
    · rw [held, h, hitsOf_append, hitsOf_cons]
    · intro e he
      rw [h]
      rcases List.mem_append.mp he with he | he
      · exact ⟨List.mem_append_left _ he, ne_of_lt (OrdMap.lt_key h he)⟩
      · exact ⟨List.mem_append_right _ (List.mem_cons_of_mem _ he), ne_of_gt (OrdMap.key_lt h he)⟩
  · refine ⟨pre, .empty, post, OrdMap.modify_at (OrdMap.insert_between h hpre hpost) _, ?_, ?_⟩
    · rw [held, h, hitsOf_append]
      rfl
    · intro e he
      rw [h]
      refine ⟨he, ?_⟩
      rcases List.mem_append.mp he with he | he
      · exact ne_of_lt (hpre e he)
      · exact ne_of_gt (hpost e he)

/-- **A hit that is held is not held again**, and another one is. -/
theorem held_addHit (l : BookcaseHitList) (hit : BookcaseHit) :
    (hit ∈ l.held ∧ (l.addHit hit).held = l.held) ∨
      hit ∉ l.held ∧ ((l.addHit hit).held).Perm (hit :: l.held) := by
  obtain ⟨pre, s, post, hentries, hheld, hothers⟩ := addHit_entries l hit
  have hnot : ∀ es, (∀ e ∈ es, e ∈ pre ++ post) → hit ∉ hitsOf es := by
    intro es hes hmem
    obtain ⟨s', he, -⟩ := mem_hitsOf.mp hmem
    exact (hothers _ (hes _ he)).2 rfl
  have hpre := hnot pre fun e he => List.mem_append_left _ he
  have hpost := hnot post fun e he => List.mem_append_right _ he
  have hmem : hit ∈ l.held ↔ hit.hitFm ∈ HitSet.monads s := by
    rw [hheld, List.mem_append, List.mem_append, List.mem_map]
    constructor
    · rintro (h | ⟨m, hm, heq⟩ | h)
      · exact absurd h hpre
      · exact congrArg BookcaseHit.hitFm heq ▸ hm
      · exact absurd h hpost
    · exact fun h => Or.inr (Or.inl ⟨_, h, rfl⟩)
  have hheld' : (l.addHit hit).held = hitsOf pre ++
      ((HitSet.monads (s.insert hit.hitFm ())).map (fun m => ⟨hit.bookcase, m⟩) ++ hitsOf post) := by
    rw [held, hentries, hitsOf_append, hitsOf_cons]
  rcases monads_insert s hit.hitFm with ⟨hm, hsame⟩ | ⟨hm, hperm⟩
  · exact Or.inl ⟨hmem.mpr hm, by rw [hheld', hheld, hsame]⟩
  · refine Or.inr ⟨fun h => hm (hmem.mp h), ?_⟩
    rw [hheld', hheld]
    have hmap := (hperm.map fun m => (⟨hit.bookcase, m⟩ : BookcaseHit)).append_right (hitsOf post)
    exact (hmap.append_left (hitsOf pre)).trans List.perm_middle

theorem noneEmpty_addHit (h : l.NoneEmpty) (hit : BookcaseHit) : (l.addHit hit).NoneEmpty := by
  obtain ⟨pre, s, post, hentries, -, hothers⟩ := addHit_entries l hit
  intro e he
  rw [hentries] at he
  rcases List.mem_append.mp he with he | he
  · exact h e (hothers e (List.mem_append_left _ he)).1
  · rcases List.mem_cons.mp he with rfl | he
    · exact monads_insert_ne_nil s hit.hitFm
    · exact h e (hothers e (List.mem_append_right _ he)).1

end AddHit

/-! ## 4. Lists that are added to -/

/-- Hits are added one by one. -/
def addHits (l : BookcaseHitList) (hits : List BookcaseHit) : BookcaseHitList := hits.foldl addHit l

/-- The number is that of the hits. -/
def Counted (l : BookcaseHitList) : Prop := l.hitCount = l.held.length

section AddHits

variable {l : BookcaseHitList}

theorem hitCount_addHits (l : BookcaseHitList) (hits : List BookcaseHit) :
    (l.addHits hits).hitCount = l.hitCount + hits.length := by
  induction hits generalizing l with
  | nil => exact (add_zero _).symm
  | cons hit hits ih =>
    rw [addHits, List.foldl_cons, ← addHits, ih, List.length_cons]
    change l.hitCount + 1 + hits.length = _
    push_cast
    omega

theorem noneEmpty_addHits (h : l.NoneEmpty) (hits : List BookcaseHit) :
    (l.addHits hits).NoneEmpty := by
  induction hits generalizing l with
  | nil => exact h
  | cons hit hits ih => exact ih (noneEmpty_addHit h hit)

/-- At most as many hits come to it as are added. -/
theorem length_held_addHits_le (l : BookcaseHitList) (hits : List BookcaseHit) :
    (l.addHits hits).held.length ≤ l.held.length + hits.length := by
  induction hits generalizing l with
  | nil => exact le_refl _
  | cons hit hits ih =>
    have hrest := ih (l.addHit hit)
    have hone : (l.addHit hit).held.length ≤ l.held.length + 1 := by
      rcases held_addHit l hit with ⟨-, h⟩ | ⟨-, h⟩
      · rw [h]
        exact Nat.le_succ _
      · rw [h.length_eq, List.length_cons]
    rw [List.length_cons]
    exact hrest.trans (by omega)

/-- **A list stays counted** exactly when the hits that are added to it are different and not
there yet.  By induction on the hits: after the first that is there the number is too high, and
nothing that is added makes up for it. -/
theorem counted_addHits_iff (h : l.Counted) (hits : List BookcaseHit) :
    (l.addHits hits).Counted ↔ hits.Nodup ∧ ∀ hit ∈ hits, hit ∉ l.held := by
  induction hits generalizing l with
  | nil => simpa [addHits] using h
  | cons hit hits ih =>
    have hcount := hitCount_addHits (l.addHit hit) hits
    have hhit : (l.addHit hit).hitCount = l.hitCount + 1 := rfl
    change ((l.addHit hit).addHits hits).Counted ↔ _
    rcases held_addHit l hit with ⟨hmem, hsame⟩ | ⟨hnot, hperm⟩
    · constructor
      · intro hcounted
        have hle := length_held_addHits_le (l.addHit hit) hits
        rw [hsame] at hle
        unfold Counted at h hcounted
        omega
      · exact fun hfresh => absurd hmem (hfresh.2 hit List.mem_cons_self)
    · have hcounted : (l.addHit hit).Counted := by
        unfold Counted at h ⊢
        rw [hhit, hperm.length_eq, List.length_cons, h]
        push_cast
        rfl
      rw [ih hcounted, List.nodup_cons]
      have hmem : ∀ other, other ∉ (l.addHit hit).held ↔ other ≠ hit ∧ other ∉ l.held := by
        intro other
        rw [hperm.mem_iff, List.mem_cons, not_or]
      constructor
      · rintro ⟨hnodup, hfresh⟩
        refine ⟨⟨fun hin => ((hmem hit).mp (hfresh hit hin)).1 rfl, hnodup⟩, ?_⟩
        refine List.forall_mem_cons.mpr ⟨hnot, fun other hother => ?_⟩
        exact ((hmem other).mp (hfresh other hother)).2
      · rintro ⟨⟨hnotin, hnodup⟩, hfresh⟩
        refine ⟨hnodup, fun other hother => (hmem other).mpr ⟨?_, ?_⟩⟩
        · rintro rfl
          exact hnotin hother
        · exact hfresh other (List.mem_cons_of_mem _ hother)

end AddHits

/-! ## 5. The operations add hits -/

section Operations

theorem foldl_addHit_monads (l : BookcaseHitList) (b : Bookcase) (ms : List Int) :
    ms.foldl (fun l m => l.addHit ⟨b, m⟩) l = l.addHits (ms.map fun m => ⟨b, m⟩) := by
  rw [addHits, List.foldl_map]

/-- A loop whose body adds hits for an element adds them for all elements. -/
theorem foldl_addHits {α : Type*} {f : BookcaseHitList → α → BookcaseHitList}
    {g : α → List BookcaseHit} (hf : ∀ l a, f l a = l.addHits (g a)) (as : List α)
    (l : BookcaseHitList) : as.foldl f l = l.addHits (as.flatMap g) := by
  induction as generalizing l with
  | nil => rfl
  | cons a as ih =>
    rw [List.foldl_cons, ih, hf, List.flatMap_cons, addHits, addHits, addHits, List.foldl_append]

theorem merge_eq (l other : BookcaseHitList) : l.merge other = l.addHits other.held :=
  foldl_addHits (fun l e => foldl_addHit_monads l e.1 _) _ l

/-- The hits at both ends of the pairs that are in range: `myM` is a hit of this list, and
`otherM` one of the other in the same bookcase. -/
def rangeHits (l other : BookcaseHitList) (tokenRange : Int) (directionMatters : Bool) :
    List BookcaseHit :=
  other.hits.entries.flatMap fun e =>
    match l.find e.1 with
    | none => []
    | some mine =>
      (HitSet.monads e.2).flatMap fun otherM =>
        mine.monads.flatMap fun myM =>
          if doIt tokenRange directionMatters myM otherM then [⟨e.1, myM⟩, ⟨e.1, otherM⟩] else []

theorem mergeRange_eq (l other : BookcaseHitList) (tokenRange : Int) (directionMatters : Bool) :
    l.mergeRange other tokenRange directionMatters =
      l.clearHitMap.addHits (rangeHits l other tokenRange directionMatters) := by
  refine foldl_addHits (fun result e => ?_) _ _
  cases l.find e.1 with
  | none => rfl
  | some mine =>
    refine foldl_addHits (fun result otherM => ?_) _ _
    refine foldl_addHits (fun result myM => ?_) _ _
    split <;> rfl

/-- The entries of bookcases that the other list has too. -/
def commonEntries (hl1 hl2 : BookcaseHitList) : List (Bookcase × HitSet) :=
  hl1.hits.entries.filter fun e => (hl2.find e.1).isSome

theorem filter_eq (hl1 hl2 : BookcaseHitList) :
    filter hl1 hl2 = hl1.clearHitMap.addHits (hitsOf (commonEntries hl1 hl2)) := by
  have hloop : filter hl1 hl2 = hl1.clearHitMap.addHits (hl1.hits.entries.flatMap fun e =>
      if (hl2.find e.1).isSome then (HitSet.monads e.2).map fun m => ⟨e.1, m⟩ else []) := by
    refine foldl_addHits (fun result e => ?_) _ _
    split
    · exact foldl_addHit_monads result e.1 _
    · rfl
  refine hloop.trans (congrArg _ ?_)
  unfold commonEntries hitsOf
  generalize hl1.hits.entries = entries
  induction entries with
  | nil => rfl
  | cons e entries ih =>
    rw [List.flatMap_cons, ih, List.filter_cons]
    split
    · rw [List.flatMap_cons]
    · rw [List.nil_append]

/-- The hits that have a hit of the other list near them. -/
def nearHits (l other : BookcaseHitList) (backward forward : Int) : List BookcaseHit :=
  l.hits.entries.flatMap fun e =>
    match other.find e.1 with
    | none => []
    | some others => ((HitSet.monads e.2).filter (isNear others e.1 backward forward)).map
        fun m => ⟨e.1, m⟩

theorem removeThoseNotPresentInOther_eq (l other : BookcaseHitList) (backward forward : Int) :
    l.removeThoseNotPresentInOther other backward forward =
      new.addHits (nearHits l other backward forward) := by
  refine foldl_addHits (fun result e => ?_) _ _
  cases other.find e.1 with
  | none => rfl
  | some others =>
    dsimp only
    generalize HitSet.monads e.2 = ms
    induction ms generalizing result with
    | nil => rfl
    | cons m ms ih =>
      rw [List.foldl_cons, ih]
      by_cases h : isNear others e.1 backward forward m = true
      · rw [if_pos h, List.filter_cons_of_pos h]
        rfl
      · rw [if_neg h, List.filter_cons_of_neg h]

/-- The first hit of each bookcase. -/
def firstHits (l : BookcaseHitList) : List BookcaseHit :=
  l.hits.entries.filterMap fun e => (HitSet.monads e.2).head?.map fun m => ⟨e.1, m⟩

theorem removeAllButFirstHitInEachBookcase_eq {l : BookcaseHitList} (h : l.NoneEmpty) :
    l.removeAllButFirstHitInEachBookcase = some (new.addHits l.firstHits) := by
  have hloop : ∀ (entries : List (Bookcase × HitSet)) (result : BookcaseHitList),
      (∀ e ∈ entries, HitSet.monads e.2 ≠ []) →
        entries.foldlM (fun newHitList e => (HitSet.monads e.2).head?.map fun m =>
          newHitList.addHit ⟨e.1, m⟩) result = some (result.addHits (entries.filterMap fun e =>
            (HitSet.monads e.2).head?.map fun m => ⟨e.1, m⟩)) := by
    intro entries
    induction entries with
    | nil => exact fun _ _ => rfl
    | cons e entries ih =>
      intro result hne
      obtain ⟨m, ms, hms⟩ := List.exists_cons_of_ne_nil (hne e List.mem_cons_self)
      have hrest := ih (result.addHit ⟨e.1, m⟩) fun e' he' => hne e' (List.mem_cons_of_mem e he')
      rw [List.foldlM_cons, hms]
      refine Eq.trans hrest ?_
      simp [hms, addHits]
  exact hloop _ _ h

/-- Hits of a part of the list are different. -/
theorem nodup_of_sublist {l : BookcaseHitList} {hits : List BookcaseHit}
    (h : hits.Sublist l.held) : hits.Nodup := l.held_nodup.sublist h

theorem sublist_flatMap {α β : Type*} {f g : α → List β} (h : ∀ a, (f a).Sublist (g a))
    (as : List α) : (as.flatMap f).Sublist (as.flatMap g) := by
  induction as with
  | nil => exact List.Sublist.refl _
  | cons a as ih =>
    rw [List.flatMap_cons, List.flatMap_cons]
    exact (h a).append ih

theorem sublist_commonEntries (hl1 hl2 : BookcaseHitList) :
    (hitsOf (commonEntries hl1 hl2)).Sublist hl1.held := by
  unfold held hitsOf commonEntries
  exact List.filter_sublist.flatMap _

theorem sublist_nearHits (l other : BookcaseHitList) (backward forward : Int) :
    (nearHits l other backward forward).Sublist l.held := by
  refine sublist_flatMap (fun e => ?_) _
  cases other.find e.1 with
  | none => exact List.nil_sublist _
  | some others => exact List.filter_sublist.map _

theorem sublist_firstHits (l : BookcaseHitList) : l.firstHits.Sublist l.held := by
  unfold firstHits held hitsOf
  generalize l.hits.entries = entries
  induction entries with
  | nil => exact List.Sublist.refl _
  | cons e entries ih =>
    rw [List.flatMap_cons]
    cases hms : HitSet.monads e.2 with
    | nil => simpa [hms] using ih
    | cons m ms =>
      rw [List.filterMap_cons_some (by rw [hms]; rfl), List.map_cons, List.cons_append]
      exact (ih.trans (List.sublist_append_right _ _)).cons_cons _

theorem counted_new : new.Counted := rfl

theorem counted_clearHitMap (l : BookcaseHitList) : l.clearHitMap.Counted := rfl

theorem noneEmpty_new : new.NoneEmpty := List.forall_mem_nil _

theorem noneEmpty_clearHitMap (l : BookcaseHitList) : l.clearHitMap.NoneEmpty :=
  List.forall_mem_nil _

end Operations

/-! ## 6. Iterators -/

namespace ConstIterator

/-- The hits from the iterator on. -/
def remaining (it : ConstIterator) : List BookcaseHit :=
  match it.bookcases with
  | [] => []
  | e :: bookcases => it.fms.map (fun m => ⟨e.1, m⟩) ++ hitsOf bookcases

/-- The iterator stands at a hit or at the end, and the bookcases after it are not empty. -/
structure Valid (it : ConstIterator) : Prop where
  here : it.bookcases ≠ [] → it.fms ≠ []
  later : ∀ e ∈ it.bookcases.tail, HitSet.monads e.2 ≠ []

variable {it : ConstIterator}

theorem Valid.hasNext_iff (h : it.Valid) :
    it.hasNext = true ↔ it.remaining ≠ [] ∧ it.maxVisitCount ≠ 0 := by
  obtain ⟨bookcases, fms, c⟩ := it
  cases bookcases with
  | nil => simp [hasNext, remaining]
  | cons e bookcases =>
    have hne : fms ≠ [] := h.here (List.cons_ne_nil _ _)
    simp [hasNext, remaining, hne]

/-- Where the iterator into a set goes when a bookcase is done. -/
theorem valid_firstFms {entries : List (Bookcase × HitSet)} (fms : List Int) (c : Int)
    (h : ∀ e ∈ entries, HitSet.monads e.2 ≠ []) :
    Valid ⟨entries, firstFms fms entries, c⟩ ∧
      remaining ⟨entries, firstFms fms entries, c⟩ = hitsOf entries := by
  cases entries with
  | nil => exact ⟨⟨fun hne => absurd rfl hne, List.forall_mem_nil _⟩, rfl⟩
  | cons e entries =>
    refine ⟨⟨fun _ => h e List.mem_cons_self, fun e' he' => h e' (List.mem_cons_of_mem e he')⟩, ?_⟩
    rw [hitsOf_cons]
    rfl

/-- One call of `next`. -/
theorem Valid.next_eq (h : it.Valid) (hnext : it.hasNext = true) : ∃ hit it',
    it.next = some (hit, it') ∧ it'.Valid ∧ it.remaining = hit :: it'.remaining ∧
      it'.maxVisitCount = if it.maxVisitCount > 0 then it.maxVisitCount - 1 else it.maxVisitCount := by
  obtain ⟨bookcases, fms, c⟩ := it
  cases bookcases with
  | nil => simp [hasNext] at hnext
  | cons e bookcases =>
    obtain ⟨m, fms, rfl⟩ := List.exists_cons_of_ne_nil (h.here (List.cons_ne_nil _ _))
    rw [next, if_pos hnext]
    by_cases hfms : fms = []
    · subst hfms
      have hlater : ∀ e' ∈ bookcases, HitSet.monads e'.2 ≠ [] := h.later
      obtain ⟨hvalid, hrest⟩ := valid_firstFms [] (if c > 0 then c - 1 else c) hlater
      refine ⟨⟨e.1, m⟩, ⟨bookcases, firstFms [] bookcases, if c > 0 then c - 1 else c⟩, rfl,
        hvalid, ?_, rfl⟩
      exact congrArg (⟨e.1, m⟩ :: ·) hrest.symm
    · refine ⟨⟨e.1, m⟩, ⟨e :: bookcases, fms, if c > 0 then c - 1 else c⟩, ?_,
        ⟨fun _ => hfms, h.later⟩, rfl, rfl⟩
      dsimp only
      rw [if_neg (by simpa using hfms)]

/-- How many hits an iterator that counts visits comes to. -/
def allowed (it : ConstIterator) : Nat :=
  if it.maxVisitCount < 0 then it.remaining.length else it.maxVisitCount.toNat

/-- **What a loop visits**, by induction on the hits that are left. -/
theorem Valid.visit_eq {fuel : Nat} (h : it.Valid) (hfuel : it.remaining.length ≤ fuel) :
    ∃ it', it.visit fuel = some (it.remaining.take it.allowed, it') ∧ it'.Valid ∧
      it'.remaining = it.remaining.drop it.allowed := by
  induction fuel generalizing it with
  | zero =>
    have hnil : it.remaining = [] := List.length_eq_zero_iff.mp (Nat.le_zero.mp hfuel)
    have hnext : ¬it.hasNext = true := fun hnext => (h.hasNext_iff.mp hnext).1 hnil
    exact ⟨it, by rw [visit, if_neg hnext, hnil, List.take_nil], h, by rw [hnil, List.drop_nil]⟩
  | succ fuel ih =>
    by_cases hnext : it.hasNext = true
    · obtain ⟨hit, it', hstep, hvalid, hrest, hcount⟩ := h.next_eq hnext
      have hne := (h.hasNext_iff.mp hnext).2
      rw [hrest, List.length_cons] at hfuel
      obtain ⟨last, hvisit, hlast, hleft⟩ := ih hvalid (Nat.le_of_succ_le_succ hfuel)
      have hallowed : it.allowed = it'.allowed + 1 := by
        unfold allowed
        rw [hcount, hrest, List.length_cons]
        by_cases hpos : it.maxVisitCount > 0
        · rw [if_pos hpos, if_neg (by omega), if_neg (by omega)]
          omega
        · rw [if_neg hpos, if_pos (by omega), if_pos (by omega)]
      refine ⟨last, ?_, hlast, ?_⟩
      · rw [visit, if_pos hnext, hstep, Option.bind_some, hvisit, hrest, hallowed,
          List.take_succ_cons]
        rfl
      · rw [hleft, hrest, hallowed, List.drop_succ_cons]
    · have hstop : it.remaining = [] ∨ it.maxVisitCount = 0 := by
        by_contra hcon
        rw [not_or] at hcon
        exact hnext (h.hasNext_iff.mpr hcon)
      refine ⟨it, ?_, h, ?_⟩
      · rw [visit, if_neg hnext]
        rcases hstop with hnil | hzero
        · rw [hnil, List.take_nil]
        · rw [allowed, hzero]
          rfl
      · rcases hstop with hnil | hzero
        · rw [hnil, List.drop_nil]
        · rw [allowed, hzero]
          rfl

end ConstIterator

section Pages

open ConstIterator

variable {l : BookcaseHitList}

theorem start_spec (h : l.NoneEmpty) (c : Int) :
    (l.start c).Valid ∧ (l.start c).remaining = l.held := valid_firstFms [] c h

/-- `const_iterator()` visits all hits in order. -/
theorem readAll_start (h : l.NoneEmpty) : l.readAll (l.start (-1)) = some l.held := by
  obtain ⟨hvalid, hremaining⟩ := start_spec h (-1)
  obtain ⟨it', hvisit, -, -⟩ := hvalid.visit_eq (le_of_eq (congrArg List.length hremaining))
  have hallowed : (l.start (-1)).allowed = l.held.length := by
    rw [allowed, hremaining]
    rfl
  rw [readAll, hvisit, hremaining, hallowed, List.take_length]
  rfl

/-- A page is a piece of the hits. -/
theorem readAll_page (h : l.NoneEmpty) {k : Nat} (hk : l.maxHitsPerPage = k) (hpos : 0 < k)
    (i : Nat) : (l.constIterator (i + 1)).bind l.readAll =
      some ((l.held.drop (i * k)).take k) := by
  obtain ⟨hvalid, hremaining⟩ := start_spec h (((i : Int) + 1 - 1) * l.maxHitsPerPage)
  obtain ⟨it', hvisit, hvalid', hleft⟩ :=
    hvalid.visit_eq (le_of_eq (congrArg List.length hremaining))
  have hoffset : ((i : Int) + 1 - 1) * l.maxHitsPerPage = (i * k : Nat) := by
    rw [hk]
    push_cast
    ring
  have hallowed : (l.start (((i : Int) + 1 - 1) * l.maxHitsPerPage)).allowed = i * k := by
    have hnot : ¬((i * k : Nat) : Int) < 0 := by omega
    rw [hoffset]
    change (if ((i * k : Nat) : Int) < 0 then _ else ((i * k : Nat) : Int).toNat) = i * k
    rw [if_neg hnot, Int.toNat_natCast]
  rw [hremaining, hallowed] at hleft
  have hpage : Valid { it' with maxVisitCount := l.maxHitsPerPage } := ⟨hvalid'.here, hvalid'.later⟩
  have hrest : remaining { it' with maxVisitCount := l.maxHitsPerPage } =
      l.held.drop (i * k) := hleft
  have hlimit : allowed { it' with maxVisitCount := l.maxHitsPerPage } = k := by
    have hnot : ¬l.maxHitsPerPage < 0 := by omega
    rw [allowed, if_neg hnot, hk, Int.toNat_natCast]
  have hlength : (remaining { it' with maxVisitCount := l.maxHitsPerPage }).length ≤
      l.held.length := by
    rw [hrest, List.length_drop]
    exact Nat.sub_le _ _
  obtain ⟨last, hread, -, -⟩ := hpage.visit_eq hlength
  rw [constIterator, if_neg (by omega), if_neg (by omega), startAt, hvisit, Option.map_some,
    Option.bind_some, readAll]
  change Option.map (·.1) (visit l.held.length { it' with maxVisitCount := l.maxHitsPerPage }) = _
  rw [hread, hrest, hlimit]
  rfl

/-- Pieces of one length make up a list. -/
theorem flatten_pieces {α : Type*} (k : Nat) : ∀ (n : Nat) (as : List α), as.length ≤ n * k →
    ((List.range n).map fun i => (as.drop (i * k)).take k).flatten = as := by
  intro n
  induction n with
  | zero =>
    intro as has
    rw [Nat.zero_mul] at has
    rw [List.length_eq_zero_iff.mp (Nat.le_zero.mp has)]
    rfl
  | succ n ih =>
    intro as has
    have hrest := ih (as.drop k) (by
      rw [List.length_drop]
      rw [Nat.succ_mul] at has
      omega)
    have hshift : ∀ i, (as.drop ((i + 1) * k)).take k = ((as.drop k).drop (i * k)).take k := by
      intro i
      rw [List.drop_drop]
      congr 2
      ring
    rw [List.range_succ_eq_map, List.map_cons, List.map_map, List.flatten_cons, Nat.zero_mul,
      List.drop_zero]
    have hmap : (List.range n).map ((fun i => (as.drop (i * k)).take k) ∘ Nat.succ) =
        (List.range n).map fun i => ((as.drop k).drop (i * k)).take k :=
      List.map_congr_left fun i _ => hshift i
    rw [hmap, hrest, List.take_append_drop]

/-- The number of pages is just enough. -/
theorem getPageCount_spec (hcount : l.Counted) {k : Nat} (hk : l.maxHitsPerPage = k)
    (hpos : 0 < k) : l.held.length ≤ l.getPageCount.toNat * k ∧
      ∀ i < l.getPageCount.toNat, i * k < l.held.length := by
  unfold Counted at hcount
  unfold getPageCount
  rw [if_neg (by omega), hcount, hk]
  by_cases hzero : (l.held.length : Int) = 0
  · rw [if_pos hzero]
    exact ⟨by omega, fun i hi => absurd hi (by simp)⟩
  · rw [if_neg hzero]
    have hdiv : (l.held.length : Int).tdiv k = (l.held.length / k : Nat) := rfl
    have hmod : (l.held.length : Int).tmod k = (l.held.length % k : Nat) := rfl
    dsimp only
    rw [hdiv, hmod]
    have hsum := Nat.div_add_mod l.held.length k
    have hlt := Nat.mod_lt l.held.length hpos
    have hcomm : k * (l.held.length / k) = l.held.length / k * k := Nat.mul_comm _ _
    have hbelow : ∀ i < l.held.length / k, i * k < l.held.length := by
      intro i hi
      have := Nat.mul_lt_mul_of_pos_right hi hpos
      omega
    by_cases hrem : l.held.length % k = 0
    · rw [if_neg (not_not.mpr (by exact_mod_cast hrem)), Int.toNat_natCast]
      exact ⟨by omega, hbelow⟩
    · rw [if_pos (by exact_mod_cast hrem)]
      have htoNat : (((l.held.length / k : Nat) : Int) + 1).toNat = l.held.length / k + 1 :=
        Int.toNat_natCast (l.held.length / k + 1)
      rw [htoNat, Nat.succ_mul]
      refine ⟨by omega, fun i hi => ?_⟩
      rcases Nat.lt_succ_iff_lt_or_eq.mp hi with hi | rfl
      · exact hbelow i hi
      · omega

/-- The pages are pieces of the hits, one after another. -/
theorem pages_eq (h : l.NoneEmpty) {k : Nat} (hk : l.maxHitsPerPage = k) (hpos : 0 < k) :
    l.pages = some ((List.range l.getPageCount.toNat).map fun i =>
      (l.held.drop (i * k)).take k) := by
  have hpage : (fun i : Nat => (l.constIterator (i + 1)).bind l.readAll) =
      fun i => pure ((l.held.drop (i * k)).take k) := funext fun i => readAll_page h hk hpos i
  rw [pages, hpage]
  exact List.mapM_pure

end Pages

/-! ## 7. Lists whose number and pages describe their hits -/

/-- What `getHitCount` and the pages promise.  The page of all hits is what `const_iterator()`
visits. -/
structure Described (l : BookcaseHitList) : Prop where
  count : l.getHitCount = ({hit | l.Holds hit} : Set BookcaseHit).ncard
  noneEmpty : ∀ e ∈ l.hits.entries, HitSet.monads e.2 ≠ []
  pages : 1 ≤ l.maxHitsPerPage → ∃ all pages, l.readAll (l.start (-1)) = some all ∧
    (∀ hit, hit ∈ all ↔ l.Holds hit) ∧ all.Nodup ∧
    l.pages = some pages ∧ pages.flatten = all ∧
    (∀ page ∈ pages.dropLast, (page.length : Int) = l.maxHitsPerPage) ∧ ∀ page ∈ pages, page ≠ []

/-- The number is right, and no bookcase is empty. -/
structure Good (l : BookcaseHitList) : Prop where
  counted : l.Counted
  noneEmpty : l.NoneEmpty

theorem good_new : new.Good := ⟨counted_new, noneEmpty_new⟩

theorem good_clearHitMap (l : BookcaseHitList) : l.clearHitMap.Good :=
  ⟨counted_clearHitMap l, noneEmpty_clearHitMap l⟩

section Described

variable {l : BookcaseHitList}

theorem Good.addHits_iff (h : l.Good) (hits : List BookcaseHit) :
    (l.addHits hits).Good ↔ hits.Nodup ∧ ∀ hit ∈ hits, hit ∉ l.held := by
  rw [← counted_addHits_iff h.counted hits]
  exact ⟨Good.counted, fun hcounted => ⟨hcounted, noneEmpty_addHits h.noneEmpty hits⟩⟩

/-- **The pages of a good list.** -/
theorem Good.pages_spec (h : l.Good) (hpos : 1 ≤ l.maxHitsPerPage) : ∃ pages,
    l.pages = some pages ∧ pages.flatten = l.held ∧
      (∀ page ∈ pages.dropLast, (page.length : Int) = l.maxHitsPerPage) ∧
      ∀ page ∈ pages, page ≠ [] := by
  obtain ⟨k, hk⟩ := Int.eq_ofNat_of_zero_le (le_trans Int.one_nonneg hpos)
  have hk0 : 0 < k := by omega
  obtain ⟨henough, hneeded⟩ := getPageCount_spec h.counted hk hk0
  refine ⟨_, pages_eq h.noneEmpty hk hk0, flatten_pieces k _ _ henough, ?_, ?_⟩
  · intro page hpage
    rw [← List.map_dropLast] at hpage
    obtain ⟨i, hi, rfl⟩ := List.mem_map.mp hpage
    -- The page after this one starts before the end of the hits.
    have hnext : i + 1 < l.getPageCount.toNat := by
      cases hn : l.getPageCount.toNat with
      | zero =>
        rw [hn] at hi
        exact absurd hi List.not_mem_nil
      | succ n =>
        rw [hn, List.range_succ, List.dropLast_concat] at hi
        exact Nat.succ_lt_succ (List.mem_range.mp hi)
    have hstart := hneeded _ hnext
    rw [Nat.succ_mul] at hstart
    rw [List.length_take, List.length_drop, hk, Nat.min_eq_left (by omega)]
  · intro page hpage
    obtain ⟨i, hi, rfl⟩ := List.mem_map.mp hpage
    have hstart := hneeded i (List.mem_range.mp hi)
    apply List.ne_nil_of_length_pos
    rw [List.length_take, List.length_drop]
    omega

/-- **Good lists are described**, and no others. -/
theorem described_iff_good : l.Described ↔ l.Good := by
  constructor
  · intro h
    refine ⟨?_, h.noneEmpty⟩
    rw [Counted, ← ncard_holds]
    exact h.count
  · intro h
    refine ⟨?_, h.noneEmpty, fun hpos => ?_⟩
    · rw [ncard_holds]
      exact h.counted
    · obtain ⟨pages, hpages, hflatten, hfull, hne⟩ := h.pages_spec hpos
      exact ⟨l.held, pages, readAll_start h.noneEmpty, fun _ => mem_held, l.held_nodup, hpages,
        hflatten, hfull, hne⟩

end Described

end BookcaseHitList

/-! ## 8. Runs -/

/-- The lists of a program, by variable. -/
abbrev HitLists := Nat → BookcaseHitList

namespace HitLists

open BookcaseHitList

/-- An operation on variables; `z` is the one that the new list is assigned to. -/
inductive Op where
  | addHit (x : Nat) (hit : BookcaseHit)
  | merge (x y : Nat)
  | mergeRange (x y : Nat) (tokenRange : Int) (directionMatters : Bool)
  | filter (x y : Nat)
  | filterBoth (x y : Nat)
  | removeThoseNotPresentInOther (z x y : Nat) (backward forward : Int)
  | removeAllButFirstHitInEachBookcase (z x : Nat)
  | clearHitMap (x : Nat)
  | setMaxHitsPerPage (x : Nat) (n : Int)
  | assign (x y : Nat)

/-- `filter(x, y)`. -/
def filterAt (s : HitLists) (x y : Nat) : HitLists :=
  Function.update s x (BookcaseHitList.filter (s x) (s y))

def filterBoth (s : HitLists) (x y : Nat) : HitLists :=
  if (s x).getBookcaseCount < (s y).getBookcaseCount then (s.filterAt x y).filterAt y x
  else (s.filterAt y x).filterAt x y

def step (s : HitLists) : Op → Option HitLists
  | .addHit x hit => some (Function.update s x ((s x).addHit hit))
  | .merge x y => some (Function.update s x ((s x).merge (s y)))
  | .mergeRange x y tokenRange directionMatters =>
    some (Function.update s x ((s x).mergeRange (s y) tokenRange directionMatters))
  | .filter x y => some (s.filterAt x y)
  | .filterBoth x y => some (s.filterBoth x y)
  | .removeThoseNotPresentInOther z x y backward forward =>
    some (Function.update s z ((s x).removeThoseNotPresentInOther (s y) backward forward))
  | .removeAllButFirstHitInEachBookcase z x =>
    (s x).removeAllButFirstHitInEachBookcase.map (Function.update s z)
  | .clearHitMap x => some (Function.update s x (s x).clearHitMap)
  | .setMaxHitsPerPage x n => some (Function.update s x ((s x).setMaxHitsPerPage n))
  | .assign x y => some (Function.update s x (s y))

/-- The operation adds no hit that is there. -/
def Fresh (s : HitLists) : Op → Prop
  | .addHit x hit => ¬(s x).Holds hit
  | .merge x y => ∀ hit, (s y).Holds hit → ¬(s x).Holds hit
  | .mergeRange x y tokenRange directionMatters =>
    (rangeHits (s x) (s y) tokenRange directionMatters).Nodup
  | _ => True

/-- All lists are good. -/
def AllGood (s : HitLists) : Prop := ∀ x, (s x).Good

section Steps

variable {s : HitLists}

theorem AllGood.update_iff (h : s.AllGood) (x : Nat) (l : BookcaseHitList) :
    AllGood (Function.update s x l) ↔ l.Good := by
  constructor
  · intro hall
    simpa using hall x
  · intro hl y
    by_cases hy : y = x
    · subst hy
      simpa using hl
    · simpa [hy] using h y

theorem AllGood.filterAt (h : s.AllGood) (x y : Nat) : AllGood (s.filterAt x y) := by
  refine (h.update_iff x _).mpr ?_
  rw [filter_eq, (good_clearHitMap (s x)).addHits_iff]
  exact ⟨nodup_of_sublist (sublist_commonEntries _ _), fun _ _ => List.not_mem_nil⟩

theorem AllGood.filterBoth (h : s.AllGood) (x y : Nat) : AllGood (s.filterBoth x y) := by
  unfold HitLists.filterBoth
  split
  · exact (h.filterAt x y).filterAt y x
  · exact (h.filterAt y x).filterAt x y

/-- **One step** from good lists leads to good lists exactly when it adds no hit twice. -/
theorem AllGood.step_iff (h : s.AllGood) (op : Op) :
    Fresh s op ↔ ∃ s', step s op = some s' ∧ AllGood s' := by
  have hdone : ∀ {s' : HitLists}, step s op = some s' →
      ((∃ s'', step s op = some s'' ∧ AllGood s'') ↔ AllGood s') := by
    intro s' hs'
    constructor
    · rintro ⟨s'', hs'', hall⟩
      exact Option.some.inj (hs'.symm.trans hs'') ▸ hall
    · exact fun hall => ⟨s', hs', hall⟩
  cases op with
  | addHit x hit =>
    rw [hdone rfl, h.update_iff]
    have hadd := (h x).addHits_iff [hit]
    simp only [List.nodup_singleton, List.forall_mem_singleton, true_and] at hadd
    exact Iff.trans (not_congr mem_held.symm) hadd.symm
  | merge x y =>
    rw [hdone rfl, h.update_iff, merge_eq, (h x).addHits_iff]
    simp only [mem_held]
    exact ⟨fun hfresh => ⟨(s y).held_nodup, hfresh⟩, And.right⟩
  | mergeRange x y tokenRange directionMatters =>
    rw [hdone rfl, h.update_iff, mergeRange_eq, (good_clearHitMap (s x)).addHits_iff]
    exact ⟨fun hfresh => ⟨hfresh, fun _ _ => List.not_mem_nil⟩, And.left⟩
  | filter x y => exact iff_of_true trivial ⟨_, rfl, h.filterAt x y⟩
  | filterBoth x y => exact iff_of_true trivial ⟨_, rfl, h.filterBoth x y⟩
  | removeThoseNotPresentInOther z x y backward forward =>
    refine iff_of_true trivial ⟨_, rfl, (h.update_iff z _).mpr ?_⟩
    rw [removeThoseNotPresentInOther_eq, good_new.addHits_iff]
    exact ⟨nodup_of_sublist (sublist_nearHits _ _ _ _), fun _ _ => List.not_mem_nil⟩
  | removeAllButFirstHitInEachBookcase z x =>
    refine iff_of_true trivial ⟨Function.update s z (new.addHits (s x).firstHits), ?_,
      (h.update_iff z _).mpr ?_⟩
    · rw [step, removeAllButFirstHitInEachBookcase_eq (h x).noneEmpty, Option.map_some]
    · rw [good_new.addHits_iff]
      exact ⟨nodup_of_sublist (sublist_firstHits _), fun _ _ => List.not_mem_nil⟩
  | clearHitMap x =>
    exact iff_of_true trivial ⟨_, rfl, (h.update_iff x _).mpr (good_clearHitMap _)⟩
  | setMaxHitsPerPage x n =>
    exact iff_of_true trivial ⟨_, rfl, (h.update_iff x _).mpr ⟨(h x).counted, (h x).noneEmpty⟩⟩
  | assign x y => exact iff_of_true trivial ⟨_, rfl, (h.update_iff x _).mpr (h y)⟩

end Steps

/-- The lists before a run. -/
def initial : HitLists := fun _ => new

/-- **When numbers and pages describe the hits** after every step of a run: when no step adds a
hit that is there. -/
theorem described_iff_fresh (ops : List Op) :
    (∀ front back, ops = front ++ back →
      ∃ s, Machine.run step initial front = some s ∧ ∀ x, (s x).Described) ↔
    Machine.Admits step Fresh initial ops := by
  rw [Machine.admits_iff (fun s op h => AllGood.step_iff h op) ops initial fun _ => good_new]
  simp only [described_iff_good, AllGood]

/-- The same hit added twice: two hits are counted, and one is there. -/
theorem not_described_addHit_twice :
    ¬∀ ops : List Op, ∃ s, Machine.run step initial ops = some s ∧ ∀ x, (s x).Described := by
  intro hall
  obtain ⟨s, hrun, hdescribed⟩ := hall [.addHit 0 ⟨toLex (1, 10), 5⟩, .addHit 0 ⟨toLex (1, 10), 5⟩]
  obtain rfl := Option.some.inj hrun
  have hcounted := (described_iff_good.mp (hdescribed 0)).counted
  unfold Counted at hcounted
  revert hcounted
  decide

end HitLists

end Emdros
