/-
# Constants that are looked up (`enum_const_cache.cpp`, `emdfdb.cpp`)

`enumConstExists` asks the cache for a constant before the table, and adds what it finds in the
table to the cache.  Nothing ties the cache to the table: it is filled by statements whose
transaction is aborted later, and then keeps constants that the table does not have.

So nothing is assumed here of what the cache has; `Extended` says what it has after some constants
have been looked up, in terms of what it had before.  Old entries stay.  An entry that is new is of
a row of the table whose name was looked up and not found in the cache, and for each such row there
is one.  From this it follows which constant `getDefault` comes to (`Extended.firstDefault_eq_some`): the
one that it would have come to before, unless a row that has been added is a default with a lower
value.

Pointers are compared with `next`, the first address that is free, so that a new object is at none
of the old ones (`Allocated`).
-/
import Emdros.EMdF.EnumConstMaps

namespace Emdros

namespace EnumConstMaps

/-! ## 1. Entries -/

/-- The pointer that `VECI` of an enumeration has for a value. -/
def veciAt (cs : EnumConstMaps) (enumId : Nat) (v : Int) : Option Nat :=
  (cs.iddVeci.lookup enumId).bind fun veci => veci.lookup v

/-- The pointer that `SECI` of an enumeration has for a name. -/
def seciAt (cs : EnumConstMaps) (enumId : Nat) (n : String) : Option Nat :=
  (cs.iddSeci.lookup enumId).bind fun seci => seci.lookup n

/-- The pointers in the maps have been given out by `new`. -/
structure Allocated (cs : EnumConstMaps) : Prop where
  veci : ∀ enumId v p, cs.veciAt enumId v = some p → p < cs.objects.next
  seci : ∀ enumId n p, cs.seciAt enumId n = some p → p < cs.objects.next

theorem allocated_empty : Allocated empty where
  veci _ _ _ h := by cases h
  seci _ _ _ h := by cases h

theorem find_eq (cs : EnumConstMaps) (enumId : Nat) (n : String) :
    cs.find enumId n = cs.behind (cs.seciAt enumId n) := rfl

theorem find_eq_none_iff {cs : EnumConstMaps} {enumId : Nat} {n : String} :
    cs.find enumId n = some none ↔ cs.seciAt enumId n = none := by
  rw [find_eq]
  cases cs.seciAt enumId n with
  | none => simp [behind]
  | some p => simp [behind]

theorem find_eq_some_iff {cs : EnumConstMaps} {enumId : Nat} {n : String} {c : EnumConstInfo} :
    cs.find enumId n = some (some c) ↔
      ∃ p, cs.seciAt enumId n = some p ∧ cs.objects.cell p = some c := by
  rw [find_eq]
  cases cs.seciAt enumId n with
  | none => simp [behind]
  | some p => simp [behind]

section Entries

variable {cs cs' : EnumConstMaps} {enumId : Nat} {enumName : String} {eci : EnumConstInfo}

/-- An enumeration that is new has no entries. -/
theorem at_addEnum (cs : EnumConstMaps) (enumId : Nat) (enumName : String) :
    (cs.addEnum enumId enumName).objects = cs.objects ∧
      (∀ e v, (cs.addEnum enumId enumName).veciAt e v = cs.veciAt e v) ∧
      ∀ e n, (cs.addEnum enumId enumName).seciAt e n = cs.seciAt e n := by
  have hlookup : ∀ {κ : Type} [DecidableEq κ] (m : AList fun _ : Nat => AList fun _ : κ => Nat)
      (e : Nat) (k : κ), ((insertNew m enumId ∅).lookup e).bind (fun n => n.lookup k) =
        (m.lookup e).bind fun n => n.lookup k := by
    intro κ _ m e k
    rw [insertNew]
    cases hm : m.lookup enumId with
    | some _ => rfl
    | none =>
      by_cases he : e = enumId
      · subst he
        rw [AList.lookup_insert, hm]
        rfl
      · rw [AList.lookup_insert_ne he]
  rw [addEnum]
  split
  · exact ⟨rfl, fun _ _ => rfl, fun _ _ => rfl⟩
  · exact ⟨rfl, fun e v => hlookup cs.iddVeci e v, fun e n => hlookup cs.iddSeci e n⟩

theorem at_setEnumeration (cs : EnumConstMaps) (enumId : Nat) (c : EnumConstCache) :
    (∀ e v, (cs.setEnumeration enumId c).veciAt e v =
      if e = enumId then c.veci.lookup v else cs.veciAt e v) ∧
    ∀ e n, (cs.setEnumeration enumId c).seciAt e n =
      if e = enumId then c.seci.lookup n else cs.seciAt e n := by
  constructor
  · intro e v
    split
    · next he =>
      subst he
      simp [veciAt, setEnumeration]
    · next he => simp [veciAt, setEnumeration, AList.lookup_insert_ne he]
  · intro e n
    split
    · next he =>
      subst he
      simp [seciAt, setEnumeration]
    · next he => simp [seciAt, setEnumeration, AList.lookup_insert_ne he]

/-- **A constant that is added** has entries of its own, under a value and a name that had none. -/
theorem addEci_eq_some (h : cs.addEci enumId enumName eci = some (true, cs')) :
    cs'.objects = cs.objects.alloc eci ∧ cs.veciAt enumId eci.value = none ∧
      cs.seciAt enumId eci.name = none ∧
      (∀ e v, cs'.veciAt e v =
        if e = enumId ∧ v = eci.value then some cs.objects.next else cs.veciAt e v) ∧
      ∀ e n, cs'.seciAt e n =
        if e = enumId ∧ n = eci.name then some cs.objects.next else cs.seciAt e n := by
  obtain ⟨hobjects, hveci, hseci⟩ := at_addEnum cs enumId enumName
  simp only [addEci, Option.bind_eq_bind, Option.bind_eq_some_iff] at h
  obtain ⟨veci, hv, seci, hs, ⟨added, c⟩, hadd, hcs'⟩ := h
  rw [Option.some.injEq, Prod.mk.injEq] at hcs'
  obtain ⟨rfl, rfl⟩ := hcs'
  simp only [EnumConstCache.addEci] at hadd
  split at hadd
  · simp at hadd
  next hvalue =>
  split at hadd
  · cases hadd
  next hname =>
  rw [Option.some.injEq, Prod.mk.injEq] at hadd
  obtain ⟨-, rfl⟩ := hadd
  obtain ⟨hset, hset'⟩ := at_setEnumeration (cs.addEnum enumId enumName) enumId
    (EnumConstCache.added ⟨(cs.addEnum enumId enumName).objects, veci, seci⟩ eci)
  have hveciAt : ∀ v, cs.veciAt enumId v = veci.lookup v := by
    intro v
    rw [← hveci, veciAt, hv, Option.bind_some]
  have hseciAt : ∀ n, cs.seciAt enumId n = seci.lookup n := by
    intro n
    rw [← hseci, seciAt, hs, Option.bind_some]
  refine ⟨by rw [← hobjects]; rfl, by rw [hveciAt, hvalue], by rw [hseciAt, hname],
    fun e v => ?_, fun e n => ?_⟩
  · rw [hset, hveci]
    by_cases he : e = enumId
    · subst he
      rw [if_pos rfl, hveciAt]
      by_cases hv : v = eci.value
      · rw [if_pos ⟨rfl, hv⟩, hv, ← hobjects]
        exact AList.lookup_insert _
      · rw [if_neg fun h => hv h.2]
        exact AList.lookup_insert_ne hv
    · rw [if_neg he, if_neg fun h => he h.1]
  · rw [hset', hseci]
    by_cases he : e = enumId
    · subst he
      rw [if_pos rfl, hseciAt]
      by_cases hn : n = eci.name
      · rw [if_pos ⟨rfl, hn⟩, hn, ← hobjects]
        exact AList.lookup_insert _
      · rw [if_neg fun h => hn h.2]
        exact AList.lookup_insert_ne hn
    · rw [if_neg he, if_neg fun h => he h.1]

end Entries

/-! ## 2. The default -/

/-- The loop stops at the least value that has a default. -/
theorem getDefaultLoop_eq_some (objects : Heap EnumConstInfo) {v : Int} {c : EnumConstInfo} :
    ∀ {l : List (Sigma fun _ : Int => Nat)}, l.Pairwise (fun a b => a.1 < b.1) →
      (getDefaultLoop objects l = some (some (v, c)) ↔
        (∃ p, ⟨v, p⟩ ∈ l ∧ objects.cell p = some c ∧ c.isDefault = true) ∧
          ∀ e ∈ l, e.1 < v → ∃ c', objects.cell e.2 = some c' ∧ c'.isDefault = false)
  | [], _ => by simp [getDefaultLoop]
  | ⟨w, q⟩ :: rest, hsorted => by
    obtain ⟨hlt, hrest⟩ := List.pairwise_cons.mp hsorted
    have ih := getDefaultLoop_eq_some objects (v := v) (c := c) hrest
    rw [getDefaultLoop]
    cases hq : objects.cell q with
    | none =>
      refine iff_of_false (by simp) ?_
      rintro ⟨⟨p, hp, hcell, -⟩, hbelow⟩
      rcases List.mem_cons.mp hp with heq | hp
      · cases heq
        rw [hq] at hcell
        cases hcell
      · obtain ⟨c', hc', -⟩ := hbelow ⟨w, q⟩ List.mem_cons_self (hlt _ hp)
        rw [hq] at hc'
        cases hc'
    | some o =>
      simp only [Option.bind_eq_bind, Option.bind_some]
      cases ho : o.isDefault with
      | true =>
        rw [if_pos rfl, Option.some.injEq, Option.some.injEq, Prod.mk.injEq]
        constructor
        · rintro ⟨rfl, rfl⟩
          refine ⟨⟨q, List.mem_cons_self, hq, ho⟩, fun e he hle => ?_⟩
          rcases List.mem_cons.mp he with rfl | he
          · exact absurd hle (lt_irrefl _)
          · exact absurd (hlt e he) (not_lt.mpr hle.le)
        · rintro ⟨⟨p, hp, hcell, -⟩, hbelow⟩
          rcases List.mem_cons.mp hp with heq | hp
          · cases heq
            rw [hq, Option.some.injEq] at hcell
            exact ⟨rfl, hcell⟩
          · obtain ⟨c', hc', hnot⟩ := hbelow ⟨w, q⟩ List.mem_cons_self (hlt _ hp)
            rw [hq, Option.some.injEq] at hc'
            rw [← hc', ho] at hnot
            cases hnot
      | false =>
        rw [if_neg (by simp), ih]
        refine and_congr ⟨?_, ?_⟩ ⟨fun hbelow e he hle => ?_, fun hbelow e he =>
          hbelow e (List.mem_cons_of_mem _ he)⟩
        · rintro ⟨p, hp, hcell, hdefault⟩
          exact ⟨p, List.mem_cons_of_mem _ hp, hcell, hdefault⟩
        · rintro ⟨p, hp, hcell, hdefault⟩
          rcases List.mem_cons.mp hp with heq | hp
          · cases heq
            rw [hq, Option.some.injEq] at hcell
            rw [← hcell, ho] at hdefault
            cases hdefault
          · exact ⟨p, hp, hcell, hdefault⟩
        · rcases List.mem_cons.mp he with rfl | he
          · exact ⟨o, hq, ho⟩
          · exact hbelow e he hle

/-- ...and goes through to the end if there is none. -/
theorem getDefaultLoop_eq_none {objects : Heap EnumConstInfo} :
    ∀ {l : List (Sigma fun _ : Int => Nat)}, getDefaultLoop objects l = some none →
      ∀ e ∈ l, ∃ c, objects.cell e.2 = some c ∧ c.isDefault = false
  | [], _, _, he => by cases he
  | ⟨w, q⟩ :: rest, h, e, he => by
    rw [getDefaultLoop] at h
    cases hq : objects.cell q with
    | none => simp [hq] at h
    | some o =>
      simp only [hq, Option.bind_eq_bind, Option.bind_some] at h
      cases ho : o.isDefault with
      | true => simp [ho] at h
      | false =>
        rw [ho, if_neg (by simp)] at h
        rcases List.mem_cons.mp he with rfl | he
        · exact ⟨o, hq, ho⟩
        · exact getDefaultLoop_eq_none h e he

theorem pairwise_entries (veci : AList fun _ : Int => Nat) :
    (veci.entries.insertionSort fun a b => a.1 ≤ b.1).Pairwise fun a b => a.1 < b.1 := by
  have hle := List.pairwise_insertionSort
    (fun a b : Sigma fun _ : Int => Nat => a.1 ≤ b.1) veci.entries
  have hne : (veci.entries.insertionSort fun a b => a.1 ≤ b.1).Pairwise fun a b => a.1 ≠ b.1 := by
    refine (List.Perm.pairwise_iff (fun h => Ne.symm h) (List.perm_insertionSort _ _)).mpr ?_
    exact List.pairwise_map.mp veci.nodupKeys
  exact hle.imp₂ (fun _ _ hle hne => lt_of_le_of_ne hle hne) hne

theorem mem_entries_iff {veci : AList fun _ : Int => Nat} {v : Int} {p : Nat} :
    ⟨v, p⟩ ∈ veci.entries.insertionSort (fun a b => a.1 ≤ b.1) ↔ veci.lookup v = some p := by
  rw [List.mem_insertionSort]
  exact AList.mem_lookup_iff.symm

/-- **Where `getDefault` stops.** -/
theorem firstDefault_eq_some_iff {cs : EnumConstMaps} {enumId : Nat} {v : Int}
    {c : EnumConstInfo} : cs.firstDefault enumId = some (some (v, c)) ↔
      (∃ p, cs.veciAt enumId v = some p ∧ cs.objects.cell p = some c ∧ c.isDefault = true) ∧
        ∀ w p, cs.veciAt enumId w = some p → w < v →
          ∃ c', cs.objects.cell p = some c' ∧ c'.isDefault = false := by
  rw [firstDefault, veciAt]
  cases hveci : cs.iddVeci.lookup enumId with
  | none => simp
  | some veci =>
    simp only [veciAt, hveci, Option.bind_some]
    rw [getDefaultLoop_eq_some cs.objects (pairwise_entries veci)]
    simp only [Sigma.forall, mem_entries_iff]

theorem not_isDefault_of_firstDefault {cs : EnumConstMaps} {enumId : Nat}
    (h : cs.firstDefault enumId = some none) {v : Int} {p : Nat}
    (hp : cs.veciAt enumId v = some p) : ∃ c, cs.objects.cell p = some c ∧ c.isDefault = false := by
  rw [firstDefault] at h
  rw [veciAt] at hp
  cases hveci : cs.iddVeci.lookup enumId with
  | none =>
    rw [hveci] at hp
    cases hp
  | some veci =>
    rw [hveci] at h hp
    exact getDefaultLoop_eq_none h _ (mem_entries_iff.mpr hp)

/-! ## 3. What looking up adds -/

/-- A row that has been looked up, and was not in the cache. -/
def Added (rows : Nat → EnumConstInfo → Prop) (looked : Nat → String → Prop)
    (before : EnumConstMaps) (enumId : Nat) (c : EnumConstInfo) : Prop :=
  rows enumId c ∧ looked enumId c.name ∧ before.seciAt enumId c.name = none

/-- The cache after some constants have been looked up, where the rows of the table are `rows`. -/
structure Extended (rows : Nat → EnumConstInfo → Prop) (looked : Nat → String → Prop)
    (before after : EnumConstMaps) : Prop where
  next : before.objects.next ≤ after.objects.next
  cell : ∀ p < before.objects.next, after.objects.cell p = before.objects.cell p
  oldVeci : ∀ enumId v p, before.veciAt enumId v = some p → after.veciAt enumId v = some p
  oldSeci : ∀ enumId n p, before.seciAt enumId n = some p → after.seciAt enumId n = some p
  newVeci : ∀ enumId v p, after.veciAt enumId v = some p → before.veciAt enumId v = some p ∨
    ∃ c, Added rows looked before enumId c ∧ c.value = v ∧ after.objects.cell p = some c
  newSeci : ∀ enumId n p, after.seciAt enumId n = some p → before.seciAt enumId n = some p ∨
    ∃ c, Added rows looked before enumId c ∧ c.name = n ∧ after.objects.cell p = some c
  there : ∀ enumId c, Added rows looked before enumId c →
    ∃ p, after.veciAt enumId c.value = some p ∧ after.objects.cell p = some c

section Extended

variable {rows : Nat → EnumConstInfo → Prop} {looked : Nat → String → Prop}
  {before after : EnumConstMaps} {enumId : Nat} {n : String} {c : EnumConstInfo}

theorem Extended.refl (before : EnumConstMaps) : Extended rows (fun _ _ => False) before before where
  next := le_rfl
  cell _ _ := rfl
  oldVeci _ _ _ h := h
  oldSeci _ _ _ h := h
  newVeci _ _ _ h := .inl h
  newSeci _ _ _ h := .inl h
  there _ _ h := h.2.1.elim

theorem Extended.congr {looked' : Nat → String → Prop} (h : Extended rows looked before after)
    (hlooked : ∀ e m, looked e m ↔ looked' e m) : Extended rows looked' before after := by
  have heq : looked = looked' := by
    funext e m
    exact propext (hlooked e m)
  rwa [← heq]

/-- A constant that the cache has is not added. -/
theorem Extended.hit (h : Extended rows looked before after)
    (hfound : after.find enumId n = some (some c)) :
    Extended rows (fun e m => looked e m ∨ e = enumId ∧ m = n) before after := by
  obtain ⟨p, hp, -⟩ := find_eq_some_iff.mp hfound
  have hadded : ∀ e c', Added rows (fun e m => looked e m ∨ e = enumId ∧ m = n) before e c' →
      Added rows looked before e c' := by
    rintro e c' ⟨hrow, hlooked | ⟨rfl, rfl⟩, hnone⟩
    · exact ⟨hrow, hlooked, hnone⟩
    · -- The cache has the name now and did not have it before, so it has been looked up.
      rcases h.newSeci _ _ _ hp with hold | ⟨c'', ⟨-, hlooked, -⟩, hname, -⟩
      · rw [hnone] at hold
        cases hold
      · rw [hname] at hlooked
        exact ⟨hrow, hlooked, hnone⟩
  have hmono : ∀ e c', Added rows looked before e c' →
      Added rows (fun e m => looked e m ∨ e = enumId ∧ m = n) before e c' :=
    fun _ _ ha => ⟨ha.1, .inl ha.2.1, ha.2.2⟩
  refine ⟨h.next, h.cell, h.oldVeci, h.oldSeci, fun e v p hp => ?_, fun e m p hp => ?_,
    fun e c' ha => h.there e c' (hadded e c' ha)⟩
  · exact (h.newVeci e v p hp).imp_right fun ⟨c', ha, hc'⟩ => ⟨c', hmono e c' ha, hc'⟩
  · exact (h.newSeci e m p hp).imp_right fun ⟨c', ha, hc'⟩ => ⟨c', hmono e c' ha, hc'⟩

/-- A row that is looked up is added, if the cache does not have its name. -/
theorem Extended.miss {after' : EnumConstMaps} {enumName : String}
    (hkey : ∀ c', rows enumId c' → c'.name = c.name → c' = c)
    (h : Extended rows looked before after) (hrow : rows enumId c)
    (hadd : after.addEci enumId enumName c = some (true, after')) :
    Extended rows (fun e m => looked e m ∨ e = enumId ∧ m = c.name) before after' := by
  obtain ⟨hobjects, hvalue, hname, hveci, hseci⟩ := addEci_eq_some hadd
  have hmono : ∀ e c', Added rows looked before e c' →
      Added rows (fun e m => looked e m ∨ e = enumId ∧ m = c.name) before e c' :=
    fun _ _ ha => ⟨ha.1, .inl ha.2.1, ha.2.2⟩
  have hkept : ∀ p c', after.objects.cell p = some c' → after'.objects.cell p = some c' := by
    intro p c' hp
    rw [hobjects]
    exact Heap.cell_alloc hp c
  have hnew : after'.objects.cell after.objects.next = some c := by
    rw [hobjects]
    exact Heap.cell_alloc_self _ _
  have hadded : Added rows (fun e m => looked e m ∨ e = enumId ∧ m = c.name) before enumId c := by
    refine ⟨hrow, .inr ⟨rfl, rfl⟩, ?_⟩
    cases hb : before.seciAt enumId c.name with
    | none => rfl
    | some p =>
      rw [h.oldSeci _ _ _ hb] at hname
      cases hname
  refine ⟨?_, fun p hp => ?_, fun e v p hp => ?_, fun e m p hp => ?_, fun e v p hp => ?_,
    fun e m p hp => ?_, fun e c' hc' => ?_⟩
  · rw [hobjects]
    exact h.next.trans (Nat.le_succ _)
  · rw [hobjects, Heap.cell_alloc_of_lt (hp.trans_le h.next)]
    exact h.cell p hp
  · have hold := h.oldVeci e v p hp
    rw [hveci, if_neg, hold]
    rintro ⟨rfl, rfl⟩
    rw [hvalue] at hold
    cases hold
  · have hold := h.oldSeci e m p hp
    rw [hseci, if_neg, hold]
    rintro ⟨rfl, rfl⟩
    rw [hname] at hold
    cases hold
  · rw [hveci] at hp
    split at hp
    · next hev =>
      obtain ⟨rfl, rfl⟩ := hev
      rw [Option.some.injEq] at hp
      subst hp
      exact .inr ⟨c, hadded, rfl, hnew⟩
    · rcases h.newVeci e v p hp with hold | ⟨c', hc', hv, hcell⟩
      · exact .inl hold
      · exact .inr ⟨c', hmono e c' hc', hv, hkept p c' hcell⟩
  · rw [hseci] at hp
    split at hp
    · next hem =>
      obtain ⟨rfl, rfl⟩ := hem
      rw [Option.some.injEq] at hp
      subst hp
      exact .inr ⟨c, hadded, rfl, hnew⟩
    · rcases h.newSeci e m p hp with hold | ⟨c', hc', hm, hcell⟩
      · exact .inl hold
      · exact .inr ⟨c', hmono e c' hc', hm, hkept p c' hcell⟩
  · obtain ⟨hrow', hlooked, hnone⟩ := hc'
    rcases hlooked with hlooked | ⟨rfl, hsame⟩
    · obtain ⟨p, hp, hcell⟩ := h.there e c' ⟨hrow', hlooked, hnone⟩
      refine ⟨p, ?_, hkept p c' hcell⟩
      rw [hveci, if_neg, hp]
      rintro ⟨rfl, hv⟩
      rw [hv, hvalue] at hp
      cases hp
    · rw [hkey c' hrow' hsame]
      exact ⟨_, by rw [hveci, if_pos ⟨rfl, rfl⟩], hnew⟩

/-- What is found afterwards was there before, or is a row. -/
theorem Extended.find_eq_some (ha : Allocated before) (h : Extended rows looked before after)
    (hfound : after.find enumId n = some (some c)) :
    before.find enumId n = some (some c) ∨
      before.find enumId n = some none ∧ rows enumId c ∧ c.name = n := by
  obtain ⟨p, hp, hcell⟩ := find_eq_some_iff.mp hfound
  rcases h.newSeci _ _ _ hp with hold | ⟨c', ⟨hrow, -, hnone⟩, hname, hcell'⟩
  · refine .inl (find_eq_some_iff.mpr ⟨p, hold, ?_⟩)
    rw [← h.cell p (ha.seci _ _ _ hold), hcell]
  · rw [hcell, Option.some.injEq] at hcell'
    subst hcell'
    rw [hname] at hnone
    exact .inr ⟨find_eq_none_iff.mpr hnone, hrow, hname⟩

/-- What is not found afterwards was not there before. -/
theorem Extended.find_eq_none (h : Extended rows looked before after)
    (hfound : after.find enumId n = some none) : before.find enumId n = some none := by
  rw [find_eq_none_iff] at hfound ⊢
  cases hb : before.seciAt enumId n with
  | none => rfl
  | some p =>
    rw [h.oldSeci _ _ _ hb] at hfound
    cases hfound

/-- A row that has been added is a default and comes before the value `v`. -/
def Overtaken (rows : Nat → EnumConstInfo → Prop) (looked : Nat → String → Prop)
    (before : EnumConstMaps) (enumId : Nat) (v : Int) : Prop :=
  ∃ c, Added rows looked before enumId c ∧ c.isDefault = true ∧ c.value < v

/-- **The default afterwards** is the default before, or a row that overtakes it. -/
theorem Extended.firstDefault_eq_some (ha : Allocated before)
    (h : Extended rows looked before after) {v : Int}
    (hfirst : after.firstDefault enumId = some (some (v, c))) :
    before.firstDefault enumId = some (some (v, c)) ∧ ¬ Overtaken rows looked before enumId v ∨
      rows enumId c ∧ ∀ w d, before.firstDefault enumId = some (some (w, d)) →
        Overtaken rows looked before enumId w := by
  obtain ⟨⟨p, hp, hcell, hdefault⟩, hbelow⟩ := firstDefault_eq_some_iff.mp hfirst
  rcases h.newVeci _ _ _ hp with hold | ⟨c', hadded, hvalue, hcell'⟩
  · refine .inl ⟨firstDefault_eq_some_iff.mpr ⟨⟨p, hold, ?_, hdefault⟩, fun w q hq hlt => ?_⟩, ?_⟩
    · rw [← h.cell p (ha.veci _ _ _ hold), hcell]
    · obtain ⟨d, hd, hnot⟩ := hbelow w q (h.oldVeci _ _ _ hq) hlt
      rw [h.cell q (ha.veci _ _ _ hq)] at hd
      exact ⟨d, hd, hnot⟩
    · rintro ⟨d, hd, hdefault', hlt⟩
      obtain ⟨q, hq, hcellq⟩ := h.there _ _ hd
      obtain ⟨d', hd', hnot⟩ := hbelow _ q hq hlt
      rw [hcellq, Option.some.injEq] at hd'
      rw [← hd', hdefault'] at hnot
      cases hnot
  · rw [hcell, Option.some.injEq] at hcell'
    subst hcell'
    by_cases hold : before.firstDefault enumId = some (some (v, c)) ∧
        ¬ Overtaken rows looked before enumId v
    · exact .inl hold
    refine .inr ⟨hadded.1, fun w d hwd => ?_⟩
    obtain ⟨⟨q, hq, hcellq, hdefaultq⟩, -⟩ := firstDefault_eq_some_iff.mp hwd
    have hqafter := h.oldVeci _ _ _ hq
    have hcellafter := (h.cell q (ha.veci _ _ _ hq)).trans hcellq
    rcases lt_trichotomy v w with hlt | heq | hgt
    · exact ⟨c, hadded, hdefault, hvalue ▸ hlt⟩
    · -- The old entry at this value is the only one.
      subst heq
      rw [hp, Option.some.injEq] at hqafter
      subst hqafter
      rw [hcell, Option.some.injEq] at hcellafter
      subst hcellafter
      by_contra hnot
      exact hold ⟨hwd, hnot⟩
    · obtain ⟨d', hd', hnot⟩ := hbelow w q hqafter hgt
      rw [hcellafter, Option.some.injEq] at hd'
      rw [← hd', hdefaultq] at hnot
      cases hnot

/-- A default that was there is there afterwards. -/
theorem Extended.firstDefault_eq_none (ha : Allocated before)
    (h : Extended rows looked before after) (hfirst : after.firstDefault enumId = some none)
    (w : Int) (d : EnumConstInfo) : before.firstDefault enumId ≠ some (some (w, d)) := by
  intro hwd
  obtain ⟨⟨q, hq, hcellq, hdefaultq⟩, -⟩ := firstDefault_eq_some_iff.mp hwd
  obtain ⟨d', hd', hnot⟩ := not_isDefault_of_firstDefault hfirst (h.oldVeci _ _ _ hq)
  rw [h.cell q (ha.veci _ _ _ hq), hcellq, Option.some.injEq] at hd'
  rw [← hd', hdefaultq] at hnot
  cases hnot

end Extended

end EnumConstMaps

end Emdros
