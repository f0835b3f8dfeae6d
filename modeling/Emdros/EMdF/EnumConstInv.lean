/-
# Enumeration constants: table against cache (`emdfdb.cpp`, `enum_const_cache.cpp`)

Between statements the cache has some of the rows, each under its value and under its name
(`Coherent`).  During an `UPDATE ENUMERATION` two constants may have one value for a while, and
then `VECI` knows only one of them: the map has no room for the other, although the table and
`SECI` have both.  `Crowded` is that defect.  It never heals: whichever constant leaves the value
takes the entry with it, and the one that stays is then missing from `VECI`.

`Tracks` is what holds of table and cache with or without the defect, and `Changes` says of each
command what it does to the rows and whether it leaves a value crowded.
-/
import Emdros.EMdF.EnumConstCache

namespace Emdros

namespace EnumConstCache

theorem lookup_insertNew {κ : Type} [DecidableEq κ] {m : AList fun _ : κ => Nat} {k k' : κ}
    {p q : Nat} (h : (insertNew m k p).lookup k' = some q) :
    m.lookup k' = some q ∨ k' = k ∧ m.lookup k = none ∧ q = p := by
  unfold insertNew at h
  split at h
  · exact Or.inl h
  · rename_i hk
    by_cases hkk : k' = k
    · subst hkk
      rw [AList.lookup_insert, Option.some.injEq] at h
      exact Or.inr ⟨rfl, hk, h.symm⟩
    · rw [AList.lookup_insert_ne hkk] at h
      exact Or.inl h

theorem lookup_insertNew_self {κ : Type} [DecidableEq κ] (m : AList fun _ : κ => Nat) (k : κ)
    (p : Nat) : ∃ q, (insertNew m k p).lookup k = some q := by
  unfold insertNew
  split
  · rename_i q hq
    exact ⟨q, hq⟩
  · exact ⟨p, AList.lookup_insert m⟩

theorem lookup_insertNew_of_some {κ : Type} [DecidableEq κ] {m : AList fun _ : κ => Nat}
    {k k' : κ} {p q : Nat} (h : m.lookup k' = some q) :
    (insertNew m k p).lookup k' = some q := by
  unfold insertNew
  split
  · exact h
  · rename_i hk
    have hne : k' ≠ k := by
      rintro rfl
      rw [h] at hk
      cases hk
    rw [AList.lookup_insert_ne hne, h]

end EnumConstCache

namespace EnumState

/-! ## 1. What holds of table and cache -/

/-- **Table and cache during an update.**  `SECI` has every constant of the table and no other;
an object is freed or is its row; and `VECI` points to objects that are alive. -/
structure Tracks (st : EnumState) : Prop where
  names : (st.rows.map (·.name)).Nodup
  cached : ∀ o ∈ st.rows, ∃ p, st.cache.seci.lookup o.name = some p
  named : ∀ n p, st.cache.seci.lookup n = some p → p < st.cache.objects.next ∧
    ∃ o ∈ st.rows, o.name = n ∧ (st.cache.objects.cell p = some o ∨ st.cache.objects.cell p = none)
  valued : ∀ v p, st.cache.veci.lookup v = some p →
    ∃ o ∈ st.rows, o.value = v ∧ st.cache.objects.cell p = some o ∧
      st.cache.seci.lookup o.name = some p

/-- A value that two constants have, or that a constant has and `VECI` does not. -/
def Crowded (st : EnumState) : Prop :=
  ∃ o ∈ st.rows, st.cache.veci.lookup o.value = none ∨
    ∃ o' ∈ st.rows, o'.name ≠ o.name ∧ o'.value = o.value

variable {st st' : EnumState} {n : String} {o : EnumConstInfo}

theorem eq_of_name {rows : List EnumConstInfo} (h : (rows.map (·.name)).Nodup)
    {o o' : EnumConstInfo} (ho : o ∈ rows) (ho' : o' ∈ rows) (hn : o.name = o'.name) : o = o' :=
  List.inj_on_of_nodup_map h ho ho' hn

theorem findRow_eq_some {rows : List EnumConstInfo} (h : (rows.map (·.name)).Nodup) :
    findRow rows n = some o ↔ o ∈ rows ∧ o.name = n := by
  constructor
  · intro hf
    exact ⟨List.mem_of_find?_eq_some hf, by simpa using List.find?_some hf⟩
  · rintro ⟨ho, hn⟩
    cases hf : findRow rows n with
    | none =>
      have := List.find?_eq_none.mp hf o ho
      simp [hn] at this
    | some o' =>
      have hn' : o'.name = n := by simpa using List.find?_some hf
      rw [eq_of_name h (List.mem_of_find?_eq_some hf) ho (hn'.trans hn.symm)]

theorem findRow_eq_none {rows : List EnumConstInfo} :
    findRow rows n = none ↔ ¬ hasName rows n := by
  rw [findRow, List.find?_eq_none, hasName]
  simp

/-- A look-up that succeeds through the cache found the row. -/
theorem Tracks.enumConstExists (h : st.Tracks) (n : String) :
    st.enumConstExists n = none ∨ st.enumConstExists n = some (findRow st.rows n, st) := by
  unfold EnumState.enumConstExists EnumConstCache.find
  cases hs : st.cache.seci.lookup n with
  | none =>
    have hno : findRow st.rows n = none := by
      rw [findRow_eq_none]
      rintro ⟨o, ho, rfl⟩
      obtain ⟨p, hp⟩ := h.cached o ho
      rw [hs] at hp
      cases hp
    right
    simp only [hno]
  | some p =>
    obtain ⟨-, o, ho, hn, hlive | hfreed⟩ := h.named n p hs
    · right
      simp only [hlive, Option.map_some]
      rw [(findRow_eq_some h.names).mpr ⟨ho, hn⟩]
    · left
      simp only [hfreed, Option.map_none]

/-- With room for every value, each object is alive and both maps have it. -/
theorem Tracks.live (h : st.Tracks) (hroom : ¬ st.Crowded) (ho : o ∈ st.rows) :
    ∃ p, st.cache.seci.lookup o.name = some p ∧ st.cache.objects.cell p = some o ∧
      st.cache.veci.lookup o.value = some p := by
  cases hv : st.cache.veci.lookup o.value with
  | none => exact absurd ⟨o, ho, Or.inl hv⟩ hroom
  | some q =>
    obtain ⟨o', ho', hval, hcell, hsec⟩ := h.valued _ _ hv
    have hname : o'.name = o.name := by
      by_contra hne
      exact hroom ⟨o, ho, Or.inr ⟨o', ho', hne, hval⟩⟩
    have heq : o' = o := eq_of_name h.names ho' ho hname
    subst heq
    exact ⟨q, hsec, hcell, rfl⟩

theorem Tracks.enumConstExists_of_room (h : st.Tracks) (hroom : ¬ st.Crowded) (n : String) :
    st.enumConstExists n = some (findRow st.rows n, st) := by
  rcases h.enumConstExists n with hnone | hsome
  · exfalso
    unfold EnumState.enumConstExists EnumConstCache.find at hnone
    cases hs : st.cache.seci.lookup n with
    | none =>
      have hno : findRow st.rows n = none := by
        rw [findRow_eq_none]
        rintro ⟨o, ho, rfl⟩
        obtain ⟨p, hp⟩ := h.cached o ho
        rw [hs] at hp
        cases hp
      simp only [hs, hno] at hnone
      cases hnone
    | some p =>
      obtain ⟨-, o, ho, rfl, -⟩ := h.named n p hs
      obtain ⟨q, hq, hcell, -⟩ := h.live hroom ho
      rw [hs, Option.some.injEq] at hq
      subst hq
      simp only [hs, hcell, Option.map_some] at hnone
      cases hnone
  · exact hsome

/-- **What a command does to table and cache**, when it returns at all: it changes the rows as
said, and it leaves some value crowded if one was, or if the rows would `clash`.  Otherwise it
returns. -/
structure Changes (st : EnumState) (rows : List EnumConstInfo) (clash : Prop)
    (r : Option EnumState) : Prop where
  run : ∀ st', r = some st' → st'.rows = rows ∧ st'.Tracks ∧ (st.Crowded ∨ clash → st'.Crowded)
  fits : ¬ st.Crowded → ¬ clash → ∃ st', r = some st' ∧ ¬ st'.Crowded

/-! ## 2. `INSERT` -/

theorem Tracks.lookup_seci_of_not_hasName (h : st.Tracks) (hnew : ¬ hasName st.rows n) :
    st.cache.seci.lookup n = none := by
  cases hs : st.cache.seci.lookup n with
  | none => rfl
  | some p =>
    obtain ⟨-, o, ho, hn, -⟩ := h.named _ _ hs
    exact absurd ⟨o, ho, hn⟩ hnew

theorem nodup_names_append {rows : List EnumConstInfo} {eci : EnumConstInfo}
    (h : (rows.map (·.name)).Nodup) (hnew : ¬ hasName rows eci.name) :
    ((rows ++ [eci]).map (·.name)).Nodup := by
  rw [List.map_append, List.map_singleton]
  refine h.append (List.nodup_singleton _) ?_
  intro n hn hn'
  obtain ⟨o, ho, rfl⟩ := List.mem_map.mp hn
  exact hnew ⟨o, ho, List.mem_singleton.mp hn'⟩

/-- A new row with an object of its own. -/
theorem Tracks.added (h : st.Tracks) {eci : EnumConstInfo} (hnew : ¬ hasName st.rows eci.name) :
    Tracks { rows := st.rows ++ [eci], cache := st.cache.added eci } where
  names := nodup_names_append h.names hnew
  cached := by
    intro o ho
    simp only [EnumConstCache.added]
    by_cases hn : o.name = eci.name
    · rw [hn, AList.lookup_insert]
      exact ⟨_, rfl⟩
    · rw [AList.lookup_insert_ne hn]
      rcases List.mem_append.mp ho with ho | ho
      · exact h.cached o ho
      · rw [List.mem_singleton.mp ho] at hn
        exact absurd rfl hn
  named := by
    intro n p hp
    simp only [EnumConstCache.added] at hp ⊢
    by_cases hn : n = eci.name
    · rw [hn, AList.lookup_insert, Option.some.injEq] at hp
      subst hp
      exact ⟨Nat.lt_succ_self _, eci, by simp, hn.symm, Or.inl (Heap.cell_alloc_self ..)⟩
    · rw [AList.lookup_insert_ne hn] at hp
      obtain ⟨hlt, o, ho, hon, hcell⟩ := h.named n p hp
      refine ⟨Nat.lt_succ_of_lt hlt, o, List.mem_append_left _ ho, hon, ?_⟩
      rwa [Heap.cell_alloc_of_lt hlt]
  valued := by
    intro v p hp
    simp only [EnumConstCache.added] at hp ⊢
    by_cases hv : v = eci.value
    · rw [hv, AList.lookup_insert, Option.some.injEq] at hp
      subst hp
      exact ⟨eci, by simp, hv.symm, Heap.cell_alloc_self .., AList.lookup_insert _⟩
    · rw [AList.lookup_insert_ne hv] at hp
      obtain ⟨o, ho, hov, hcell, hsec⟩ := h.valued v p hp
      refine ⟨o, List.mem_append_left _ ho, hov, Heap.cell_alloc hcell _, ?_⟩
      have hn : o.name ≠ eci.name := fun hn => hnew ⟨o, ho, hn⟩
      rw [AList.lookup_insert_ne hn, hsec]

/-- **`createEnumConstant`** adds a row, and fails on a name that is there; with room for every
value it also fails on a value that is there. -/
theorem Tracks.createEnumConstant (h : st.Tracks) (eci : EnumConstInfo) :
    Changes st (st.rows ++ [eci]) (hasName st.rows eci.name ∨ ∃ o ∈ st.rows, o.value = eci.value)
      (st.createEnumConstant eci) := by
  by_cases hname : hasName st.rows eci.name
  · have hnone : st.createEnumConstant eci = none := by
      rw [EnumState.createEnumConstant, if_pos hname]
    refine ⟨fun st' hst => ?_, fun _ hclash => absurd (Or.inl hname) hclash⟩
    rw [hnone] at hst
    cases hst
  · cases hv : st.cache.veci.lookup eci.value with
    | some p =>
      have hnone : st.createEnumConstant eci = none := by
        simp [EnumState.createEnumConstant, addEnumConstToCache, EnumConstCache.addEci, hv]
      refine ⟨fun st' hst => ?_, fun _ hclash => ?_⟩
      · rw [hnone] at hst
        cases hst
      · obtain ⟨o, ho, hov, -⟩ := h.valued _ _ hv
        exact absurd (Or.inr ⟨o, ho, hov⟩) hclash
    | none =>
      have hsome : st.createEnumConstant eci =
          some { rows := st.rows ++ [eci], cache := st.cache.added eci } := by
        simp [EnumState.createEnumConstant, if_neg hname, addEnumConstToCache,
          EnumConstCache.addEci, hv, h.lookup_seci_of_not_hasName hname]
      refine ⟨fun st' hst => ?_, fun hroom hclash => ⟨_, hsome, ?_⟩⟩
      · rw [hsome, Option.some.injEq] at hst
        subst hst
        refine ⟨rfl, h.added hname, ?_⟩
        -- a constant that `VECI` does not have and whose value is taken now shares it
        have hshare : ∀ o ∈ st.rows, o.value = eci.value →
            Crowded { rows := st.rows ++ [eci], cache := st.cache.added eci } := by
          intro o ho hov
          exact ⟨eci, by simp, Or.inr ⟨o, List.mem_append_left _ ho,
            fun hn => hname ⟨o, ho, hn⟩, hov⟩⟩
        rintro (⟨o, ho, hlost | ⟨o', ho', hne, hval⟩⟩ | hno | ⟨o, ho, hov⟩)
        · by_cases hov : o.value = eci.value
          · exact hshare o ho hov
          · refine ⟨o, List.mem_append_left _ ho, Or.inl ?_⟩
            simp only [EnumConstCache.added]
            rw [AList.lookup_insert_ne hov, hlost]
        · exact ⟨o, List.mem_append_left _ ho,
            Or.inr ⟨o', List.mem_append_left _ ho', hne, hval⟩⟩
        · exact absurd hno hname
        · exact hshare o ho hov
      · have hfree : ∀ o ∈ st.rows, o.value ≠ eci.value :=
          fun o ho hov => hclash (Or.inr ⟨o, ho, hov⟩)
        rintro ⟨o, ho, hlost | ⟨o', ho', hne, hval⟩⟩
        · simp only [EnumConstCache.added] at hlost
          by_cases hov : o.value = eci.value
          · rw [hov, AList.lookup_insert] at hlost
            cases hlost
          · rw [AList.lookup_insert_ne hov] at hlost
            rcases List.mem_append.mp ho with ho | ho
            · exact hroom ⟨o, ho, Or.inl hlost⟩
            · exact hov (by rw [List.mem_singleton.mp ho])
        · simp only [List.mem_append, List.mem_singleton] at ho ho'
          rcases ho with ho | rfl <;> rcases ho' with ho' | rfl
          · exact hroom ⟨o, ho, Or.inr ⟨o', ho', hne, hval⟩⟩
          · exact hfree o ho hval.symm
          · exact hfree o' ho' hval
          · exact hne rfl

/-! ## 3. `UPDATE` -/

/-- The rows with another value for one name. -/
def setValue (rows : List EnumConstInfo) (name : String) (value : Int) : List EnumConstInfo :=
  rows.map fun o => if o.name = name then { o with value := value } else o

theorem mem_setValue {rows : List EnumConstInfo} {v : Int} {x : EnumConstInfo} :
    x ∈ setValue rows n v ↔
      (∃ o ∈ rows, o.name = n ∧ x = { o with value := v }) ∨ x ∈ rows ∧ x.name ≠ n := by
  rw [setValue, List.mem_map]
  constructor
  · rintro ⟨o, ho, rfl⟩
    by_cases hn : o.name = n
    · rw [if_pos hn]
      exact Or.inl ⟨o, ho, hn, rfl⟩
    · rw [if_neg hn]
      exact Or.inr ⟨ho, hn⟩
  · rintro (⟨o, ho, hn, rfl⟩ | ⟨hx, hn⟩)
    · exact ⟨o, ho, by rw [if_pos hn]⟩
    · exact ⟨x, hx, by rw [if_neg hn]⟩

theorem names_setValue (rows : List EnumConstInfo) (n : String) (v : Int) :
    (setValue rows n v).map (·.name) = rows.map (·.name) := by
  rw [setValue, List.map_map]
  refine List.map_congr_left fun o _ => ?_
  simp only [Function.comp_apply]
  split <;> rfl

/-- The `WHERE` clause also compares the old value, which the row has. -/
theorem update_rows {rows : List EnumConstInfo} (h : (rows.map (·.name)).Nodup) (ho : o ∈ rows)
    (v : Int) :
    (rows.map fun x => if x.name = o.name ∧ x.value = o.value then { x with value := v } else x)
      = setValue rows o.name v := by
  refine List.map_congr_left fun x hx => ?_
  by_cases hn : x.name = o.name
  · have hxo := eq_of_name h hx ho hn
    subst hxo
    simp
  · rw [if_neg (fun hc => hn hc.1), if_neg hn]

section Objects

variable {p : Nat}

/-- A look-up that hit the cache, and the pointer that it went through. -/
theorem Tracks.pointer (h : st.Tracks) (hf : st.enumConstExists n = some (some o, st')) :
    o ∈ st.rows ∧ o.name = n ∧
      ∃ p, st.cache.seci.lookup o.name = some p ∧ st.cache.objects.cell p = some o := by
  rcases h.enumConstExists n with hnone | hsome
  · rw [hf] at hnone
    cases hnone
  · rw [hf, Option.some.injEq, Prod.mk.injEq] at hsome
    obtain ⟨ho, rfl⟩ := (findRow_eq_some h.names).mp hsome.1.symm
    refine ⟨ho, rfl, ?_⟩
    obtain ⟨p, hp⟩ := h.cached o ho
    obtain ⟨-, o', ho', hn, hlive | hfreed⟩ := h.named _ _ hp
    · rw [eq_of_name h.names ho' ho hn] at hlive
      exact ⟨p, hp, hlive⟩
    · unfold EnumState.enumConstExists EnumConstCache.find at hf
      simp only [hp, hfreed, Option.map_none] at hf
      cases hf

theorem updateValue_eq {c : EnumConstCache} (hs : c.seci.lookup n = some p)
    (hc : c.objects.cell p = some o) (v : Int) :
    c.updateValue n v = (c.veci.lookup o.value).map
      fun _ => c.updated o v p (Heap.lt_next hc) := by
  unfold EnumConstCache.updateValue
  rw [hs]
  simp only [hc, Option.bind_eq_bind, Option.bind_some, Heap.write, Heap.run_assign hc]
  cases c.veci.lookup o.value <;> rfl

theorem Tracks.updated (h : st.Tracks) (ho : o ∈ st.rows)
    (hs : st.cache.seci.lookup o.name = some p) (hc : st.cache.objects.cell p = some o) (v : Int) :
    Tracks { rows := setValue st.rows o.name v
             cache := st.cache.updated o v p (Heap.lt_next hc) } where
  names := by
    rw [names_setValue]
    exact h.names
  cached := by
    intro x hx
    rcases mem_setValue.mp hx with ⟨o', ho', -, rfl⟩ | ⟨hx, -⟩
    · exact h.cached o' ho'
    · exact h.cached x hx
  named := by
    intro m r hr
    replace hr : st.cache.seci.lookup m = some r := hr
    obtain ⟨hlt, x, hx, rfl, hcell⟩ := h.named m r hr
    refine ⟨hlt, ?_⟩
    by_cases hn : x.name = o.name
    · rw [hn, hs, Option.some.injEq] at hr
      subst hr
      refine ⟨_, mem_setValue.mpr (Or.inl ⟨o, ho, rfl, rfl⟩), hn.symm, Or.inl ?_⟩
      exact Heap.cell_set_self _ _ (Heap.lt_next hc)
    · refine ⟨x, mem_setValue.mpr (Or.inr ⟨hx, hn⟩), rfl, ?_⟩
      have hne : r ≠ p := by
        rintro rfl
        rw [hc] at hcell
        rcases hcell with hcell | hcell <;> cases hcell
        exact hn rfl
      simp only [EnumConstCache.updated]
      rwa [Heap.cell_set _ _ _ hne]
  valued := by
    intro w r hr
    rcases EnumConstCache.lookup_insertNew hr with hr | ⟨rfl, -, rfl⟩
    · have hwo : w ≠ o.value := by
        rintro rfl
        rw [AList.lookup_erase] at hr
        cases hr
      rw [AList.lookup_erase_ne hwo] at hr
      obtain ⟨x, hx, rfl, hcell, hsec⟩ := h.valued w r hr
      have hn : x.name ≠ o.name := by
        intro hn
        rw [eq_of_name h.names hx ho hn] at hwo
        exact hwo rfl
      have hne : r ≠ p := by
        rintro rfl
        rw [hc] at hcell
        cases hcell
        exact hn rfl
      refine ⟨x, mem_setValue.mpr (Or.inr ⟨hx, hn⟩), rfl, ?_, hsec⟩
      simp only [EnumConstCache.updated]
      rwa [Heap.cell_set _ _ _ hne]
    · refine ⟨_, mem_setValue.mpr (Or.inl ⟨o, ho, rfl, rfl⟩), rfl, ?_, hs⟩
      exact Heap.cell_set_self _ _ (Heap.lt_next hc)

/-- **`updateEnumConst`** gives a constant another value; it clashes with a constant that has
the value already, although the command goes through. -/
theorem Tracks.updateEnumConst (h : st.Tracks) (ho : o ∈ st.rows)
    (hs : st.cache.seci.lookup o.name = some p) (hc : st.cache.objects.cell p = some o) (v : Int) :
    Changes st (setValue st.rows o.name v) (∃ x ∈ st.rows, x.name ≠ o.name ∧ x.value = v)
      (st.updateEnumConst o.name o.value v) := by
  have heq : st.updateEnumConst o.name o.value v = (st.cache.veci.lookup o.value).map fun _ =>
      { rows := setValue st.rows o.name v
        cache := st.cache.updated o v p (Heap.lt_next hc) } := by
    rw [EnumState.updateEnumConst, updateValue_eq hs hc, update_rows h.names ho]
    cases st.cache.veci.lookup o.value <;> rfl
  have hnew : { o with value := v } ∈ setValue st.rows o.name v :=
    mem_setValue.mpr (Or.inl ⟨o, ho, rfl, rfl⟩)
  have hold : ∀ x ∈ st.rows, x.name ≠ o.name → x ∈ setValue st.rows o.name v :=
    fun x hx hn => mem_setValue.mpr (Or.inr ⟨hx, hn⟩)
  refine ⟨fun st' hst => ?_, fun hroom hclash => ?_⟩
  · cases hq : st.cache.veci.lookup o.value with
    | none =>
      rw [heq, hq] at hst
      cases hst
    | some q =>
      rw [heq, hq, Option.map_some, Option.some.injEq] at hst
      subst hst
      refine ⟨rfl, h.updated ho hs hc v, ?_⟩
      have hshare : ∀ x ∈ st.rows, x.name ≠ o.name → x.value = v → Crowded
          { rows := setValue st.rows o.name v
            cache := st.cache.updated o v p (Heap.lt_next hc) } :=
        fun x hx hn hv => ⟨_, hnew, Or.inr ⟨x, hold x hx hn, hn, hv⟩⟩
      -- the value that the constant leaves is gone from `VECI`, whoever else has it
      have hleft : ∀ x ∈ st.rows, x.name ≠ o.name → x.value ≠ v →
          (st.cache.veci.erase o.value).lookup x.value = none → Crowded
          { rows := setValue st.rows o.name v
            cache := st.cache.updated o v p (Heap.lt_next hc) } := by
        intro x hx hn hv hlost
        refine ⟨x, hold x hx hn, Or.inl ?_⟩
        cases hins : (EnumConstCache.insertNew (st.cache.veci.erase o.value) v p).lookup x.value with
        | none => exact hins
        | some r =>
          rcases EnumConstCache.lookup_insertNew hins with hr | ⟨hxv, -, -⟩
          · rw [hlost] at hr
            cases hr
          · exact absurd hxv hv
      rintro (⟨x, hx, hlost | ⟨x', hx', hne, hval⟩⟩ | ⟨x, hx, hn, hv⟩)
      · have hn : x.name ≠ o.name := by
          intro hn
          rw [eq_of_name h.names hx ho hn, hq] at hlost
          cases hlost
        by_cases hv : x.value = v
        · exact hshare x hx hn hv
        · refine hleft x hx hn hv ?_
          have hxo : x.value ≠ o.value := by
            intro hxo
            rw [hxo, hq] at hlost
            cases hlost
          rw [AList.lookup_erase_ne hxo, hlost]
      · have htwo : ∀ x ∈ st.rows, x.name ≠ o.name → x.value = o.value → Crowded
            { rows := setValue st.rows o.name v
              cache := st.cache.updated o v p (Heap.lt_next hc) } := by
          intro x hx hn hxo
          by_cases hv : x.value = v
          · exact hshare x hx hn hv
          · exact hleft x hx hn hv (by rw [hxo, AList.lookup_erase])
        by_cases hn : x.name = o.name
        · have hxo := eq_of_name h.names hx ho hn
          subst hxo
          exact htwo x' hx' hne hval
        · by_cases hn' : x'.name = o.name
          · have hxo := eq_of_name h.names hx' ho hn'
            subst hxo
            exact htwo x hx hn hval.symm
          · exact ⟨x, hold x hx hn, Or.inr ⟨x', hold x' hx' hn', hne, hval⟩⟩
      · exact hshare x hx hn hv
  · obtain ⟨r, -, -, hr⟩ := h.live hroom ho
    refine ⟨_, by rw [heq, hr]; rfl, ?_⟩
    rintro ⟨x, hx, hlost | ⟨x', hx', hne, hval⟩⟩
    · rcases mem_setValue.mp hx with ⟨_, _, _, rfl⟩ | ⟨hx, hn⟩
      · obtain ⟨q, hq⟩ :=
          EnumConstCache.lookup_insertNew_self (st.cache.veci.erase o.value) v p
        rw [EnumConstCache.updated, hq] at hlost
        cases hlost
      · obtain ⟨q, -, -, hq⟩ := h.live hroom hx
        have hxo : x.value ≠ o.value := fun hxo => hroom ⟨o, ho, Or.inr ⟨x, hx, hn, hxo⟩⟩
        rw [← AList.lookup_erase_ne hxo] at hq
        rw [EnumConstCache.updated, EnumConstCache.lookup_insertNew_of_some hq] at hlost
        cases hlost
    · rcases mem_setValue.mp hx with ⟨_, _, hn, rfl⟩ | ⟨hx, hn⟩ <;>
        rcases mem_setValue.mp hx' with ⟨_, _, hn', rfl⟩ | ⟨hx', hn'⟩
      · exact hne (hn'.trans hn.symm)
      · exact hclash ⟨x', hx', hn', hval⟩
      · exact hclash ⟨x, hx, hn, hval.symm⟩
      · exact hroom ⟨x, hx, Or.inr ⟨x', hx', hne, hval⟩⟩

/-! ## 4. `DELETE` -/

/-- The rows without one name. -/
def removeName (rows : List EnumConstInfo) (name : String) : List EnumConstInfo :=
  rows.filter fun o => o.name ≠ name

theorem mem_removeName {rows : List EnumConstInfo} {x : EnumConstInfo} :
    x ∈ removeName rows n ↔ x ∈ rows ∧ x.name ≠ n := by
  rw [removeName, List.mem_filter, decide_eq_true_eq]

theorem delete_rows {rows : List EnumConstInfo} (h : (rows.map (·.name)).Nodup) (ho : o ∈ rows) :
    (rows.filter fun x => ¬ (x.name = o.name ∧ x.value = o.value)) = removeName rows o.name := by
  refine List.filter_congr fun x hx => ?_
  rw [decide_eq_decide, not_iff_not]
  constructor
  · exact fun hc => hc.1
  · intro hn
    rw [eq_of_name h hx ho hn]
    exact ⟨rfl, rfl⟩

theorem Tracks.drop_eq (h : st.Tracks) (hs : st.cache.seci.lookup o.name = some p)
    (hc : st.cache.objects.cell p = some o) :
    st.cache.drop o.name = none ∧ st.cache.veci.lookup o.value = none ∨
    ∃ q x, ∃ hq : st.cache.objects.cell q = some x, x.value = o.value ∧
      st.cache.veci.lookup o.value = some q ∧ st.cache.drop o.name = some (st.cache.dropped o q (Heap.lt_next hq)) := by
  unfold EnumConstCache.drop
  rw [hs]
  cases hv : st.cache.veci.lookup o.value with
  | none =>
    left
    simp only [hc, hv, Option.bind_eq_bind, Option.bind_some, Option.bind_none, and_self]
  | some q =>
    right
    obtain ⟨x, hx, hxo, hcell, -⟩ := h.valued _ _ hv
    refine ⟨q, x, hcell, hxo, rfl, ?_⟩
    simp only [hc, hv, Option.bind_eq_bind, Option.bind_some, Heap.delete, Heap.run_assign hcell]
    rfl

theorem Tracks.dropped (h : st.Tracks) (ho : o ∈ st.rows) {q : Nat} {x : EnumConstInfo}
    (hq : st.cache.objects.cell q = some x) (hxo : x.value = o.value) :
    Tracks { rows := removeName st.rows o.name
             cache := st.cache.dropped o q (Heap.lt_next hq) } where
  names := h.names.sublist (List.filter_sublist.map _)
  cached := by
    intro y hy
    obtain ⟨hy, hn⟩ := mem_removeName.mp hy
    simp only [EnumConstCache.dropped]
    rw [AList.lookup_erase_ne hn]
    exact h.cached y hy
  named := by
    intro m r hr
    simp only [EnumConstCache.dropped] at hr ⊢
    have hn : m ≠ o.name := by
      rintro rfl
      rw [AList.lookup_erase] at hr
      cases hr
    rw [AList.lookup_erase_ne hn] at hr
    obtain ⟨hlt, y, hy, rfl, hcell⟩ := h.named m r hr
    refine ⟨hlt, y, mem_removeName.mpr ⟨hy, hn⟩, rfl, ?_⟩
    by_cases hrq : r = q
    · subst hrq
      exact Or.inr (Heap.cell_set_self ..)
    · rwa [Heap.cell_set _ _ _ hrq]
  valued := by
    intro w r hr
    simp only [EnumConstCache.dropped] at hr ⊢
    have hwo : w ≠ o.value := by
      rintro rfl
      rw [AList.lookup_erase] at hr
      cases hr
    rw [AList.lookup_erase_ne hwo] at hr
    obtain ⟨y, hy, rfl, hcell, hsec⟩ := h.valued w r hr
    have hn : y.name ≠ o.name := by
      intro hn
      rw [eq_of_name h.names hy ho hn] at hwo
      exact hwo rfl
    have hrq : r ≠ q := by
      rintro rfl
      rw [hq] at hcell
      cases hcell
      exact hwo hxo
    refine ⟨y, mem_removeName.mpr ⟨hy, hn⟩, rfl, ?_, ?_⟩
    · rwa [Heap.cell_set _ _ _ hrq]
    · rwa [AList.lookup_erase_ne hn]

/-- **`dropEnumConst`** removes a constant. -/
theorem Tracks.dropEnumConst (h : st.Tracks) (ho : o ∈ st.rows)
    (hs : st.cache.seci.lookup o.name = some p) (hc : st.cache.objects.cell p = some o) :
    Changes st (removeName st.rows o.name) False (st.dropEnumConst o.name o.value) := by
  rcases h.drop_eq hs hc with ⟨hnone, hlost⟩ | ⟨q, x, hq, hxo, hv, hsome⟩
  · have heq : st.dropEnumConst o.name o.value = none := by
      rw [EnumState.dropEnumConst, hnone]
      rfl
    refine ⟨fun st' hst => ?_, fun hroom _ => absurd ⟨o, ho, Or.inl hlost⟩ hroom⟩
    rw [heq] at hst
    cases hst
  · have heq : st.dropEnumConst o.name o.value = some
        { rows := removeName st.rows o.name
          cache := st.cache.dropped o q (Heap.lt_next hq) } := by
      rw [EnumState.dropEnumConst, hsome, ← delete_rows h.names ho]
      rfl
    have hkeep : ∀ y ∈ st.rows, y.name ≠ o.name → y ∈ removeName st.rows o.name :=
      fun y hy hn => mem_removeName.mpr ⟨hy, hn⟩
    refine ⟨fun st' hst => ?_, fun hroom _ => ⟨_, heq, ?_⟩⟩
    · rw [heq, Option.some.injEq] at hst
      subst hst
      refine ⟨rfl, h.dropped ho hq hxo, ?_⟩
      have hleft : ∀ y ∈ st.rows, y.name ≠ o.name → y.value = o.value → Crowded
          { rows := removeName st.rows o.name
            cache := st.cache.dropped o q (Heap.lt_next hq) } := by
        intro y hy hn hyo
        refine ⟨y, hkeep y hy hn, Or.inl ?_⟩
        rw [EnumConstCache.dropped, hyo, AList.lookup_erase]
      rintro (⟨y, hy, hlost | ⟨y', hy', hne, hval⟩⟩ | hno)
      · have hyo : y.value ≠ o.value := by
          intro hyo
          rw [hyo, hv] at hlost
          cases hlost
        have hn : y.name ≠ o.name := by
          intro hn
          rw [eq_of_name h.names hy ho hn] at hyo
          exact hyo rfl
        refine ⟨y, hkeep y hy hn, Or.inl ?_⟩
        rw [EnumConstCache.dropped, AList.lookup_erase_ne hyo, hlost]
      · by_cases hn : y.name = o.name
        · have hyo := eq_of_name h.names hy ho hn
          subst hyo
          exact hleft y' hy' hne hval
        · by_cases hn' : y'.name = o.name
          · have hyo := eq_of_name h.names hy' ho hn'
            subst hyo
            exact hleft y hy hn hval.symm
          · exact ⟨y, hkeep y hy hn, Or.inr ⟨y', hkeep y' hy' hn', hne, hval⟩⟩
      · exact hno.elim
    · rintro ⟨y, hy, hlost | ⟨y', hy', hne, hval⟩⟩
      · obtain ⟨hy, hn⟩ := mem_removeName.mp hy
        obtain ⟨r, -, -, hr⟩ := h.live hroom hy
        have hyo : y.value ≠ o.value := fun hyo => hroom ⟨o, ho, Or.inr ⟨y, hy, hn, hyo⟩⟩
        rw [EnumConstCache.dropped, AList.lookup_erase_ne hyo, hr] at hlost
        cases hlost
      · exact hroom ⟨y, (mem_removeName.mp hy).1,
          Or.inr ⟨y', (mem_removeName.mp hy').1, hne, hval⟩⟩

end Objects

/-! ## 5. Between statements -/

/-- **The state between statements.**  Names and values are distinct, and the cache has some of
the constants, each in both maps. -/
structure Coherent (st : EnumState) : Prop where
  names : (st.rows.map (·.name)).Nodup
  values : (st.rows.map (·.value)).Nodup
  named : ∀ n p, st.cache.seci.lookup n = some p → ∃ o ∈ st.rows, o.name = n ∧
    st.cache.objects.cell p = some o ∧ st.cache.veci.lookup o.value = some p
  valued : ∀ v p, st.cache.veci.lookup v = some p → ∃ o ∈ st.rows, o.value = v ∧
    st.cache.objects.cell p = some o ∧ st.cache.seci.lookup o.name = some p

theorem eq_of_value {rows : List EnumConstInfo} (h : (rows.map (·.value)).Nodup)
    {o o' : EnumConstInfo} (ho : o ∈ rows) (ho' : o' ∈ rows) (hv : o.value = o'.value) : o = o' :=
  List.inj_on_of_nodup_map h ho ho' hv

/-- Any table is coherent with an empty cache. -/
theorem coherent_empty {rows : List EnumConstInfo} (hn : (rows.map (·.name)).Nodup)
    (hv : (rows.map (·.value)).Nodup) : Coherent ⟨rows, .empty⟩ where
  names := hn
  values := hv
  named := by
    intro n p hp
    cases hp
  valued := by
    intro v p hp
    cases hp

/-- With room for every value, what an update keeps up is coherence. -/
theorem Tracks.coherent (h : st.Tracks) (hroom : ¬ st.Crowded) : st.Coherent where
  names := h.names
  values := by
    rw [List.nodup_map_iff_inj_on (List.Nodup.of_map _ h.names)]
    intro o ho o' ho' hv
    by_contra hne
    exact hroom ⟨o, ho, Or.inr ⟨o', ho', fun hn => hne (eq_of_name h.names ho' ho hn).symm,
      hv.symm⟩⟩
  named := by
    intro n p hp
    obtain ⟨-, o, ho, rfl, -⟩ := h.named n p hp
    obtain ⟨q, hq, hcell, hv⟩ := h.live hroom ho
    rw [hp, Option.some.injEq] at hq
    subst hq
    exact ⟨o, ho, rfl, hcell, hv⟩
  valued := h.valued

/-- A coherent state whose cache is complete. -/
theorem Coherent.tracks (h : st.Coherent)
    (hall : ∀ o ∈ st.rows, ∃ p, st.cache.veci.lookup o.value = some p) :
    st.Tracks ∧ ¬ st.Crowded := by
  refine ⟨⟨h.names, ?_, ?_, h.valued⟩, ?_⟩
  · intro o ho
    obtain ⟨p, hp⟩ := hall o ho
    obtain ⟨o', ho', hv, -, hsec⟩ := h.valued _ _ hp
    rw [eq_of_value h.values ho' ho hv] at hsec
    exact ⟨p, hsec⟩
  · intro n p hp
    obtain ⟨o, ho, hn, hcell, -⟩ := h.named n p hp
    exact ⟨Heap.lt_next hcell, o, ho, hn, Or.inl hcell⟩
  · rintro ⟨o, ho, hlost | ⟨o', ho', hne, hv⟩⟩
    · obtain ⟨p, hp⟩ := hall o ho
      rw [hp] at hlost
      cases hlost
    · rw [eq_of_value h.values ho' ho hv] at hne
      exact hne rfl

/-- A complete cache is needed for nothing else: crowding shows in a coherent state. -/
theorem Coherent.not_crowded (h : st.Coherent)
    (hall : ∀ o ∈ st.rows, ∃ p, st.cache.seci.lookup o.name = some p) : ¬ st.Crowded := by
  refine (h.tracks fun o ho => ?_).2
  obtain ⟨p, hp⟩ := hall o ho
  obtain ⟨o', ho', hn, -, hv⟩ := h.named _ _ hp
  rw [eq_of_name h.names ho' ho hn] at hv
  exact ⟨p, hv⟩

/-- A constant of the table that is offered to the cache. -/
theorem Coherent.addEnumConstToCache (h : st.Coherent) (ho : o ∈ st.rows) :
    ∃ b st', st.addEnumConstToCache o = some (b, st') ∧ st'.rows = st.rows ∧ st'.Coherent ∧
      (∃ p, st'.cache.veci.lookup o.value = some p) ∧
      (∀ v p, st.cache.veci.lookup v = some p → st'.cache.veci.lookup v = some p) ∧
      (st.cache.seci.lookup o.name = none → b = true) := by
  unfold EnumState.addEnumConstToCache EnumConstCache.addEci
  cases hv : st.cache.veci.lookup o.value with
  | some p =>
    refine ⟨false, st, rfl, rfl, h, ⟨p, hv⟩, fun _ _ hp => hp, fun hs => ?_⟩
    obtain ⟨o', ho', hval, -, hsec⟩ := h.valued _ _ hv
    rw [eq_of_value h.values ho' ho hval, hs] at hsec
    cases hsec
  | none =>
    have hs : st.cache.seci.lookup o.name = none := by
      cases hs : st.cache.seci.lookup o.name with
      | none => rfl
      | some p =>
        obtain ⟨o', ho', hn, -, hval⟩ := h.named _ _ hs
        rw [eq_of_name h.names ho' ho hn, hv] at hval
        cases hval
    refine ⟨true, { rows := st.rows, cache := st.cache.added o }, by rw [hs]; rfl, rfl, ?_, ?_, ?_,
      fun _ => rfl⟩
    · refine ⟨h.names, h.values, ?_, ?_⟩
      · intro n p hp
        simp only [EnumConstCache.added] at hp ⊢
        by_cases hn : n = o.name
        · rw [hn, AList.lookup_insert, Option.some.injEq] at hp
          subst hp
          exact ⟨o, ho, hn.symm, Heap.cell_alloc_self .., AList.lookup_insert _⟩
        · rw [AList.lookup_insert_ne hn] at hp
          obtain ⟨o', ho', rfl, hcell, hval⟩ := h.named n p hp
          have hvo : o'.value ≠ o.value := by
            intro hvo
            rw [hvo, hv] at hval
            cases hval
          refine ⟨o', ho', rfl, Heap.cell_alloc hcell _, ?_⟩
          rwa [AList.lookup_insert_ne hvo]
      · intro v p hp
        simp only [EnumConstCache.added] at hp ⊢
        by_cases hvo : v = o.value
        · rw [hvo, AList.lookup_insert, Option.some.injEq] at hp
          subst hp
          exact ⟨o, ho, hvo.symm, Heap.cell_alloc_self .., AList.lookup_insert _⟩
        · rw [AList.lookup_insert_ne hvo] at hp
          obtain ⟨o', ho', rfl, hcell, hsec⟩ := h.valued v p hp
          have hn : o'.name ≠ o.name := by
            intro hn
            rw [hn, hs] at hsec
            cases hsec
          refine ⟨o', ho', rfl, Heap.cell_alloc hcell _, ?_⟩
          rwa [AList.lookup_insert_ne hn]
    · exact ⟨_, AList.lookup_insert _⟩
    · intro v p hp
      have hvo : v ≠ o.value := by
        rintro rfl
        rw [hv] at hp
        cases hp
      simp only [EnumConstCache.added]
      rw [AList.lookup_insert_ne hvo, hp]

/-- **`enumConstExists`** answers from the table, and may leave the constant in the cache. -/
theorem Coherent.enumConstExists (h : st.Coherent) (n : String) :
    ∃ st', st.enumConstExists n = some (findRow st.rows n, st') ∧ st'.rows = st.rows ∧
      st'.Coherent := by
  unfold EnumState.enumConstExists EnumConstCache.find
  cases hs : st.cache.seci.lookup n with
  | some p =>
    obtain ⟨o, ho, hn, hcell, -⟩ := h.named n p hs
    refine ⟨st, ?_, rfl, h⟩
    simp only [hcell, Option.map_some]
    rw [(findRow_eq_some h.names).mpr ⟨ho, hn⟩]
  | none =>
    cases hf : findRow st.rows n with
    | none => exact ⟨st, rfl, rfl, h⟩
    | some o =>
      obtain ⟨ho, rfl⟩ := (findRow_eq_some h.names).mp hf
      obtain ⟨b, st', hadd, hrows, hco, -, -, hb⟩ := h.addEnumConstToCache ho
      rw [hb hs] at hadd
      refine ⟨st', ?_, hrows, hco⟩
      simp only [hadd]

/-- The loop of `getEnumConstants` completes the cache. -/
theorem Coherent.cacheRows : ∀ {rows : List EnumConstInfo} {st : EnumState}, st.Coherent →
    (∀ o ∈ rows, o ∈ st.rows) →
      ∃ st', EnumState.cacheRows rows st = some st' ∧ st'.rows = st.rows ∧ st'.Coherent ∧
        (∀ o ∈ rows, ∃ p, st'.cache.veci.lookup o.value = some p) ∧
        (∀ v p, st.cache.veci.lookup v = some p → st'.cache.veci.lookup v = some p)
  | [], st, h, _ => ⟨st, rfl, rfl, h, by simp, fun _ _ hp => hp⟩
  | o :: rows, st, h, hin => by
    obtain ⟨b, st₁, hadd, hrows₁, hco₁, ⟨p, hp⟩, hkeep₁, -⟩ :=
      h.addEnumConstToCache (hin o List.mem_cons_self)
    obtain ⟨st₂, hrun, hrows₂, hco₂, hall, hkeep₂⟩ :=
      @Coherent.cacheRows rows _ hco₁
        (fun x hx => by rw [hrows₁]; exact hin x (List.mem_cons_of_mem _ hx))
    refine ⟨st₂, ?_, hrows₂.trans hrows₁, hco₂, ?_, fun v q hq => hkeep₂ v q (hkeep₁ v q hq)⟩
    · rw [EnumState.cacheRows, hadd]
      exact hrun
    · intro x hx
      rcases List.mem_cons.mp hx with rfl | hx
      · exact ⟨p, hkeep₂ _ _ hp⟩
      · exact hall x hx

/-- **`getEnumConstants`** returns the table, and has put all of it into the cache. -/
theorem Coherent.getEnumConstants (h : st.Coherent) :
    ∃ result st', st.getEnumConstants = some (result, st') ∧ result.Perm st.rows ∧
      st'.rows = st.rows ∧ st'.Tracks ∧ ¬ st'.Crowded := by
  have hperm := List.perm_insertionSort (fun a b : EnumConstInfo => a.name ≤ b.name) st.rows
  obtain ⟨st', hrun, hrows, hco, hall, -⟩ :=
    h.cacheRows (fun o ho => hperm.mem_iff.mp ho)
  refine ⟨_, st', ?_, hperm, hrows, hco.tracks fun o ho => hall o ?_⟩
  · rw [EnumState.getEnumConstants, hrun]
    rfl
  · rw [hrows] at ho
    exact hperm.mem_iff.mpr ho

/-! ## 6. The default -/

/-- A constant after the default was given to a name. -/
def mark (name : String) (o : EnumConstInfo) : EnumConstInfo :=
  { o with isDefault := o.name == name }

theorem setDefault_rows (rows : List EnumConstInfo) (n : String) :
    ((rows.map fun o => { o with isDefault := false }).map fun o =>
      if o.name = n then { o with isDefault := true } else o) = rows.map (mark n) := by
  rw [List.map_map]
  refine List.map_congr_left fun o _ => ?_
  simp only [Function.comp_apply, mark]
  split
  · rename_i hn
    simp [hn]
  · rename_i hn
    simp [hn]

theorem setNewDefaultLoop_spec (n : String) : ∀ (l : List (Sigma fun _ : String => Nat))
    (h : Heap EnumConstInfo), (∀ e ∈ l, ∃ o, h.cell e.2 = some o) →
      ∃ h', EnumConstCache.setNewDefaultLoop n l h = some h' ∧
        ∀ p o, h.cell p = some o →
          h'.cell p = some (if p ∈ l.map (·.2) then mark n o else o) := by
  intro l
  induction l with
  | nil =>
    intro h _
    exact ⟨h, rfl, fun p o hp => by simpa using hp⟩
  | cons e rest ih =>
    intro h hlive
    obtain ⟨m, q⟩ := e
    obtain ⟨x, hx⟩ := hlive _ List.mem_cons_self
    have hcell : ∀ p o, h.cell p = some o →
        (h.set q (some (mark n x)) (Heap.lt_next hx)).cell p
          = some (if p = q then mark n o else o) := by
      intro p o hp
      by_cases hpq : p = q
      · subst hpq
        rw [hx, Option.some.injEq] at hp
        rw [Heap.cell_set_self, if_pos rfl, hp]
      · rw [Heap.cell_set _ _ _ hpq, hp, if_neg hpq]
    have hlive' : ∀ e ∈ rest, ∃ o,
        (h.set q (some (mark n x)) (Heap.lt_next hx)).cell e.2 = some o := by
      intro e he
      obtain ⟨o, ho⟩ := hlive e (List.mem_cons_of_mem _ he)
      exact ⟨_, hcell _ _ ho⟩
    obtain ⟨h', hrun, hmark⟩ := ih _ hlive'
    refine ⟨h', ?_, ?_⟩
    · rw [EnumConstCache.setNewDefaultLoop]
      simp only [hx, Option.bind_eq_bind, Option.bind_some, Heap.write, Heap.run_assign hx]
      exact hrun
    · intro p o hp
      rw [hmark p _ (hcell p o hp)]
      have hidem : mark n (mark n o) = mark n o := rfl
      by_cases hpq : p = q <;> by_cases hpr : p ∈ rest.map (·.2) <;>
        simp [hpq, hpr, hidem]

/-- The rows and `VECI` after `setDefaultEnumConst`, when it returns. -/
theorem setDefaultEnumConst_eq (hrun : st.setDefaultEnumConst n = some st') :
    st'.rows = st.rows.map (mark n) ∧ st'.cache.veci = st.cache.veci ∧
      st'.cache.seci = st.cache.seci := by
  unfold EnumState.setDefaultEnumConst EnumConstCache.setNewDefault at hrun
  cases hl : EnumConstCache.setNewDefaultLoop n st.cache.seci.entries st.cache.objects with
  | none =>
    simp only [hl, Option.bind_eq_bind, Option.bind_none] at hrun
    cases hrun
  | some objects =>
    simp only [hl, Option.bind_eq_bind, Option.bind_some, Option.some.injEq] at hrun
    subst hrun
    exact ⟨setDefault_rows _ _, rfl, rfl⟩

theorem names_mark (rows : List EnumConstInfo) (n : String) :
    (rows.map (mark n)).map (·.name) = rows.map (·.name) := by
  rw [List.map_map]
  rfl

theorem values_mark (rows : List EnumConstInfo) (n : String) :
    (rows.map (mark n)).map (·.value) = rows.map (·.value) := by
  rw [List.map_map]
  rfl

/-- Moving the default does not make room. -/
theorem Crowded.setDefaultEnumConst (h : st.Crowded)
    (hrun : st.setDefaultEnumConst n = some st') : st'.Crowded := by
  obtain ⟨hrows, hveci, -⟩ := setDefaultEnumConst_eq hrun
  obtain ⟨o, ho, hlost⟩ := h
  have hin : ∀ x ∈ st.rows, mark n x ∈ st'.rows := by
    intro x hx
    rw [hrows]
    exact List.mem_map_of_mem hx
  refine ⟨mark n o, hin o ho, ?_⟩
  rcases hlost with hlost | ⟨o', ho', hne, hv⟩
  · left
    rw [hveci]
    exact hlost
  · exact Or.inr ⟨mark n o', hin o' ho', hne, hv⟩

/-- **`setDefaultEnumConst`** keeps a coherent state coherent. -/
theorem Coherent.setDefaultEnumConst (h : st.Coherent) (n : String) :
    ∃ st', st.setDefaultEnumConst n = some st' ∧ st'.rows = st.rows.map (mark n) ∧
      st'.Coherent := by
  have hlive : ∀ e ∈ st.cache.seci.entries, ∃ o, st.cache.objects.cell e.2 = some o := by
    rintro ⟨m, p⟩ he
    obtain ⟨o, -, -, hcell, -⟩ := h.named m p (AList.mem_lookup_iff.mpr he)
    exact ⟨o, hcell⟩
  obtain ⟨objects, hloop, hmark⟩ := setNewDefaultLoop_spec n _ _ hlive
  have hcell : ∀ m p o, st.cache.seci.lookup m = some p → st.cache.objects.cell p = some o →
      objects.cell p = some (mark n o) := by
    intro m p o hs hc
    rw [hmark p o hc, if_pos]
    exact List.mem_map_of_mem (f := (·.2)) (AList.mem_lookup_iff.mp hs)
  refine ⟨⟨st.rows.map (mark n), { st.cache with objects := objects }⟩, ?_, rfl, ?_, ?_, ?_, ?_⟩
  · rw [EnumState.setDefaultEnumConst, EnumConstCache.setNewDefault, hloop,
      ← setDefault_rows st.rows n]
    rfl
  · rw [names_mark]
    exact h.names
  · rw [values_mark]
    exact h.values
  · intro m p hp
    obtain ⟨o, ho, hn, hc, hv⟩ := h.named m p hp
    exact ⟨mark n o, List.mem_map_of_mem ho, hn, hcell m p o hp hc, hv⟩
  · intro v p hp
    obtain ⟨o, ho, hv, hc, hs⟩ := h.valued v p hp
    exact ⟨mark n o, List.mem_map_of_mem ho, hv, hcell _ p o hs hc, hs⟩

end EnumState

end Emdros
