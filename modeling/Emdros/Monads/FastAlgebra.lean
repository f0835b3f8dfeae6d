/-
# `FastSetOfMonads` computes what `SetOfMonads` computes

`ofSetOfMonads` is the constructor of a fast set from a plain one.  On sets with the
representation invariant it is a homomorphism: each update of the fast set built from `s`
succeeds, and yields the fast set built from the updated `s` (`addMSE_ofSetOfMonads`,
`removeMSE_ofSetOfMonads` and so on).  So whatever is known of `SetOfMonads` carries over, and
the invariant of the fast set, which adds that every key is the first monad of its element, is
being the image of an invariant set (`repInv_ofSetOfMonads`, `RepInv.eq_ofSetOfMonads`).

The one update that `SetOfMonads` lacks is `removeMonadsBefore`.  It cuts the element around
`monad` in place and leaves its old key, so it loses the invariant when that element is not
the last one (`removeMonadsBefore_spec`).
-/
import Emdros.Monads.FastSetOfMonads
import Emdros.Monads.SetAlgebra

namespace Emdros

open SpanList

namespace SetOfMonads

/-! ## 1. The list algorithms skip what lies before the change -/

/-- The merge loop steps over elements that end well before `current`. -/
theorem addMSELoop_append {current : MonadSetElement} (vs : List MonadSetElement) :
    ∀ {ps : List MonadSetElement}, (∀ p ∈ ps, p.lastM + 1 < current.firstM) →
      addMSELoop current (ps ++ vs) = ps ++ addMSELoop current vs
  | [], _ => rfl
  | p :: ps, h => by
    have hp := h p List.mem_cons_self
    have h₁ := p.first_le_last
    have h₂ := current.first_le_last
    have ih := addMSELoop_append vs fun q hq => h q (List.mem_cons_of_mem p hq)
    have htouch : ¬ (current.overlap p || current.adjacent p) = true := by
      rw [Bool.or_eq_true, MonadSetElement.overlap_iff, MonadSetElement.adjacent_iff]
      omega
    have hpast : ¬ p.past current = true := by
      rw [MonadSetElement.past_iff]
      omega
    rw [List.cons_append, addMSELoop, if_neg htouch, if_neg hpast, ih, List.cons_append]

/-- ...and stops at once before an element past `current`. -/
theorem addMSELoop_of_past {current v : MonadSetElement} {vs : List MonadSetElement}
    (h : v.firstM > current.lastM + 1) : addMSELoop current (v :: vs) = current :: v :: vs := by
  have h₂ := current.first_le_last
  have htouch : ¬ (current.overlap v || current.adjacent v) = true := by
    have h₁ := v.first_le_last
    rw [Bool.or_eq_true, MonadSetElement.overlap_iff, MonadSetElement.adjacent_iff]
    omega
  rw [addMSELoop, if_neg htouch, if_pos (MonadSetElement.past_iff.mpr h)]

/-- The loop of `removeMSE` steps over elements that end before the range. -/
theorem removeMSELoop_append {bFirst bLast : Int} {vs : List MonadSetElement} :
    ∀ {ps : List MonadSetElement}, (∀ p ∈ ps, p.lastM < bFirst) →
      removeMSELoop bFirst bLast (ps ++ vs) = ps ++ removeMSELoop bFirst bLast vs
  | [], _ => rfl
  | p :: ps, h => by
    rw [List.cons_append, removeMSELoop, if_pos (h p List.mem_cons_self),
      removeMSELoop_append fun q hq => h q (List.mem_cons_of_mem p hq), List.cons_append]

/-- ...and leaves a list alone that starts past the range. -/
theorem removeMSELoop_of_past {bFirst bLast : Int} (hb : bFirst ≤ bLast) :
    ∀ {vs : List MonadSetElement}, (∀ v ∈ vs, bLast < v.firstM) →
      removeMSELoop bFirst bLast vs = vs
  | [], _ => rfl
  | v :: vs, h => by
    have h₁ := h v List.mem_cons_self
    have h₂ := v.first_le_last
    rw [removeMSELoop, if_neg (by omega), if_pos h₁]

theorem Sep.firstM_lt {p v : MonadSetElement} (h : p.lastM + 1 < v.firstM) :
    p.firstM < v.firstM := by
  have := p.first_le_last
  omega

end SetOfMonads

namespace FastSetOfMonads

open SetOfMonads (InRange)

/-! ## 2. Maps that hold a list of elements -/

/-- The map has the elements of `l`, each under its first monad. -/
def Holds (m : OrdMap Int MonadSetElement) (l : List MonadSetElement) : Prop :=
  m.entries = l.map fun e => (e.firstM, e)

namespace Holds

variable {m : OrdMap Int MonadSetElement} {ps vs l : List MonadSetElement}
  {p v e : MonadSetElement}

theorem empty : Holds OrdMap.empty [] := rfl

/-- The list determines the map. -/
theorem unique {m' : OrdMap Int MonadSetElement} (h : Holds m l) (h' : Holds m' l) : m = m' :=
  OrdMap.ext (h.trans h'.symm)

theorem elements (h : Holds m l) : m.entries.map (·.2) = l := by
  rw [h, List.map_map]
  exact List.map_id l

theorem isEmpty (h : Holds m l) : m.isEmpty = l.isEmpty := by
  rw [OrdMap.isEmpty, h]
  cases l <;> rfl

theorem size (h : Holds m l) : m.size = l.length := by
  rw [OrdMap.size, h, List.length_map]

theorem begin (h : Holds m l) : m.begin = l.head?.map (·.firstM) := by
  rw [OrdMap.begin, h]
  cases l <;> rfl

theorem front (h : Holds m l) : m.front = l.head? := by
  rw [OrdMap.front, h]
  cases l <;> rfl

theorem back (h : Holds m l) : m.back = l.getLast? := by
  rw [OrdMap.back, h, List.getLast?_map]
  cases l.getLast? <;> rfl

theorem split (h : Holds m (ps ++ v :: vs)) :
    m.entries = (ps.map fun e => (e.firstM, e)) ++
      (v.firstM, v) :: vs.map fun e => (e.firstM, e) := by
  rw [h, List.map_append, List.map_cons]

theorem value (h : Holds m (ps ++ v :: vs)) : m.value (some v.firstM) = some v :=
  OrdMap.value_at h.split

theorem next (h : Holds m (ps ++ v :: vs)) :
    m.next v.firstM = vs.head?.map (·.firstM) := by
  rw [OrdMap.next_at h.split]
  cases vs <;> rfl

theorem prev (h : Holds m ((ps ++ [p]) ++ vs)) :
    m.prev (vs.head?.map (·.firstM)) = some p.firstM := by
  have h' : m.entries = ((ps.map fun e => (e.firstM, e)) ++ [(p.firstM, p)]) ++
      vs.map fun e => (e.firstM, e) := by
    rw [h, List.map_append, List.map_append]
    rfl
  rw [← OrdMap.prev_split h']
  cases vs <;> rfl

theorem erase (h : Holds m (ps ++ v :: vs)) : Holds (m.erase v.firstM) (ps ++ vs) := by
  rw [Holds, OrdMap.erase_at h.split, List.map_append]

theorem insert (h : Holds m (ps ++ vs)) (hps : ∀ p ∈ ps, p.firstM < e.firstM)
    (hvs : ∀ v ∈ vs, e.firstM < v.firstM) :
    Holds (m.insert e.firstM e) (ps ++ e :: vs) := by
  have h' : m.entries = (ps.map fun e => (e.firstM, e)) ++ vs.map fun e => (e.firstM, e) := by
    rw [h, List.map_append]
  rw [Holds, OrdMap.insert_between h' (by simpa using hps) (by simpa using hvs),
    List.map_append, List.map_cons]

/-- Erasing an element and inserting another in its place. -/
theorem replace (h : Holds m (ps ++ v :: vs)) (hps : ∀ p ∈ ps, p.firstM < e.firstM)
    (hvs : ∀ v ∈ vs, e.firstM < v.firstM) :
    Holds ((m.erase v.firstM).insert e.firstM e) (ps ++ e :: vs) := h.erase.insert hps hvs

/-- The element at the iterator, counted with those before it. -/
theorem snoc (h : Holds m (ps ++ v :: vs)) : Holds m ((ps ++ [v]) ++ vs) := by
  rw [List.append_assoc]
  exact h

theorem eraseBefore (h : Holds m (ps ++ v :: vs)) :
    Holds (m.eraseBefore (some v.firstM)) (v :: vs) := by
  rw [Holds, OrdMap.eraseBefore_at h.split, List.map_cons]

/-- Where `upper_bound` lands. -/
theorem upperBound (h : Holds m l) (key : Int) :
    ∃ ps vs, l = ps ++ vs ∧ (∀ p ∈ ps, p.firstM ≤ key) ∧ (∀ v ∈ vs, key < v.firstM) ∧
      m.upperBound key = vs.head?.map (·.firstM) := by
  obtain ⟨pre, post, hsplit, hpre, hpost⟩ := m.exists_split key
  have hl : l = pre.map (·.2) ++ post.map (·.2) := by
    rw [← h.elements, hsplit, List.map_append]
  have hkey : ∀ q ∈ m.entries, q.1 = q.2.firstM := by
    intro q hq
    rw [h] at hq
    obtain ⟨e, -, rfl⟩ := List.mem_map.mp hq
    rfl
  refine ⟨pre.map (·.2), post.map (·.2), hl, ?_, ?_, ?_⟩
  · intro p hp
    obtain ⟨q, hq, rfl⟩ := List.mem_map.mp hp
    rw [← hkey q (hsplit ▸ List.mem_append_left post hq)]
    exact hpre q hq
  · intro v hv
    obtain ⟨q, hq, rfl⟩ := List.mem_map.mp hv
    rw [← hkey q (hsplit ▸ List.mem_append_right pre hq)]
    exact hpost q hq
  · rw [OrdMap.upperBound_split hsplit hpre hpost]
    cases post with
    | nil => rfl
    | cons q post =>
      have := hkey q (hsplit ▸ List.mem_append_right pre List.mem_cons_self)
      simp [this]

/-- Where `upper_bound` and the step back land: what is skipped ends before `key`. -/
theorem upperBoundBack (h : Holds m l) (hsep : Sep l) (key : Int) :
    ∃ ps vs, l = ps ++ vs ∧ (∀ p ∈ ps, p.lastM + 1 < key) ∧
      FastSetOfMonads.upperBoundBack m key = vs.head?.map (·.firstM) := by
  obtain ⟨ps, vs, rfl, hps, hvs, hub⟩ := h.upperBound key
  unfold FastSetOfMonads.upperBoundBack
  simp only [hub, h.begin]
  rcases List.eq_nil_or_concat ps with rfl | ⟨ps, q, rfl⟩
  · exact ⟨[], vs, rfl, by simp, by simp⟩
  · rw [List.concat_eq_append] at *
    refine ⟨ps, q :: vs, by simp, ?_, ?_⟩
    · intro p hp
      have h₁ := (sep_append.mp (sep_append.mp hsep).1).2.2 p hp q (List.mem_singleton.mpr rfl)
      have h₂ := hps q (List.mem_append_right ps (List.mem_singleton.mpr rfl))
      simp only [MonadSetElement.spanned_lo, MonadSetElement.spanned_hi] at h₁
      omega
    · -- the map does not begin here: its first key is not past `key`
      have hne : vs.head?.map (·.firstM) ≠ (ps ++ [q] ++ vs).head?.map (·.firstM) := by
        obtain ⟨r, rs, hr⟩ := List.exists_cons_of_ne_nil (l := ps ++ [q]) (by simp)
        have hrle := hps r (hr ▸ List.mem_cons_self)
        rw [hr]
        cases vs with
        | nil => simp
        | cons v vs =>
          have := hvs v List.mem_cons_self
          simp only [List.head?_cons, Option.map_some, List.cons_append, ne_eq,
            Option.some.injEq]
          omega
      rw [if_pos hne, h.prev]
      rfl

end Holds

theorem Holds.cons_of_foldl : ∀ {l ps : List MonadSetElement}
    {m : OrdMap Int MonadSetElement}, Holds m ps → Sep (ps ++ l) →
      Holds (l.foldl (fun m mse => m.insert mse.firstM mse) m) (ps ++ l)
  | [], ps, m, h, _ => by
    rw [List.append_nil]
    exact h
  | e :: l, ps, m, h, hsep => by
    have hps : ∀ p ∈ ps, p.firstM < e.firstM := fun p hp =>
      SetOfMonads.Sep.firstM_lt ((sep_append.mp hsep).2.2 p hp e List.mem_cons_self)
    have h' : Holds (m.insert e.firstM e) (ps ++ [e]) :=
      Holds.insert (show Holds m (ps ++ []) by rwa [List.append_nil]) hps (by simp)
    have := Holds.cons_of_foldl (l := l) h' (by simpa using hsep)
    simpa using this

/-! ## 3. The invariant -/

/-- The plain set with the same elements and bounds. -/
def asSet (f : FastSetOfMonads) : SetOfMonads := ⟨f.elements, f.mFirst, f.mLast⟩

/-- The monads of a set. -/
def mem (f : FastSetOfMonads) : Set Int := cover f.elements

/-- **The representation invariant** of a fast set: every key is the first monad of its
element, and the elements and bounds are those of a plain set with its invariant. -/
structure RepInv (f : FastSetOfMonads) : Prop where
  key_eq : ∀ p ∈ f.monadMs.entries, p.1 = p.2.firstM
  set : f.asSet.RepInv

/-- A fast set built from a plain one holds its elements. -/
theorem holds_ofSetOfMonads {s : SetOfMonads} (h : Sep s.monadMs) :
    Holds (ofSetOfMonads s).monadMs s.monadMs :=
  Holds.cons_of_foldl Holds.empty (by rwa [List.nil_append])

/-- ...and is determined by that. -/
theorem eq_ofSetOfMonads {s : SetOfMonads} (hsep : Sep s.monadMs)
    {m : OrdMap Int MonadSetElement} (h : Holds m s.monadMs) :
    (⟨m, s.mFirst, s.mLast⟩ : FastSetOfMonads) = ofSetOfMonads s :=
  FastSetOfMonads.ext (h.unique (holds_ofSetOfMonads hsep)) rfl rfl

@[simp] theorem asSet_ofSetOfMonads {s : SetOfMonads} (h : s.RepInv) :
    (ofSetOfMonads s).asSet = s := by
  have : (ofSetOfMonads s).elements = s.monadMs := (holds_ofSetOfMonads h.sep).elements
  rw [asSet, this]
  rfl

/-- A fast set built from a set with the invariant has the invariant. -/
theorem repInv_ofSetOfMonads {s : SetOfMonads} (h : s.RepInv) : (ofSetOfMonads s).RepInv where
  key_eq := by
    intro p hp
    rw [holds_ofSetOfMonads h.sep] at hp
    obtain ⟨e, -, rfl⟩ := List.mem_map.mp hp
    rfl
  set := by
    rw [asSet_ofSetOfMonads h]
    exact h

theorem RepInv.holds {f : FastSetOfMonads} (h : f.RepInv) : Holds f.monadMs f.elements := by
  rw [Holds, elements, List.map_map]
  refine (List.map_id f.monadMs.entries).symm.trans (List.map_congr_left ?_)
  intro p hp
  exact Prod.ext (h.key_eq p hp) rfl

/-- ...and every fast set with the invariant is built from its plain counterpart. -/
theorem RepInv.eq_ofSetOfMonads {f : FastSetOfMonads} (h : f.RepInv) :
    f = ofSetOfMonads f.asSet :=
  FastSetOfMonads.eq_ofSetOfMonads h.set.sep h.holds

theorem ofSetOfMonads_empty : ofSetOfMonads SetOfMonads.empty = empty := rfl

theorem repInv_empty : empty.RepInv := repInv_ofSetOfMonads SetOfMonads.repInv_empty

theorem isEmpty_ofSetOfMonads {s : SetOfMonads} (h : Sep s.monadMs) :
    (ofSetOfMonads s).isEmpty = s.isEmpty := (holds_ofSetOfMonads h).isEmpty

theorem elements_ofSetOfMonads {s : SetOfMonads} (h : Sep s.monadMs) :
    (ofSetOfMonads s).elements = s.monadMs := (holds_ofSetOfMonads h).elements

/-- The assertion at the end of an update holds. -/
theorem checkBounds_of_holds {s : SetOfMonads} (h : s.RepInv) (hne : s.monadMs ≠ [])
    {m : OrdMap Int MonadSetElement} (hm : Holds m s.monadMs) :
    checkBounds ⟨m, s.mFirst, s.mLast⟩ = some (ofSetOfMonads s) := by
  obtain ⟨front, hf⟩ : ∃ front, s.monadMs.head? = some front :=
    ⟨_, List.head?_eq_some_head hne⟩
  obtain ⟨back, hb⟩ : ∃ back, s.monadMs.getLast? = some back :=
    ⟨_, List.getLast?_eq_some_getLast hne⟩
  rw [checkBounds, if_pos, FastSetOfMonads.eq_ofSetOfMonads h.sep hm]
  constructor
  · simp only [hm.front, hf, Option.map_some, h.first_eq front hf]
  · simp only [hm.back, hb, Option.map_some, h.last_eq back hb]

/-! ## 4. `addMSE` -/

/-- **The merge loop on the map is the merge loop on the list.**  The elements before the
iterator end well before `current`; the fuel exceeds the number of elements from it on. -/
theorem addMSELoop_spec : ∀ (vs ps : List MonadSetElement) (fuel : Nat)
    (m : OrdMap Int MonadSetElement) (current : MonadSetElement),
    Holds m (ps ++ vs) → vs.length < fuel → Sep (ps ++ vs) →
      (∀ p ∈ ps, p.lastM + 1 < current.firstM) →
      ∃ m' current', addMSELoop fuel m (vs.head?.map (·.firstM)) current
          = some (m', current') ∧
        Holds (m'.insert current'.firstM current') (ps ++ SetOfMonads.addMSELoop current vs)
  | [], ps, fuel + 1, m, current, hm, _, _, hps => by
    refine ⟨m, current, rfl, ?_⟩
    exact hm.insert (fun p hp => SetOfMonads.Sep.firstM_lt (hps p hp)) (by simp)
  | v :: vs, ps, fuel + 1, m, current, hm, hfuel, hsep, hps => by
    have hgap : ∀ p ∈ ps, p.lastM + 1 < v.firstM := fun p hp =>
      (sep_append.mp hsep).2.2 p hp v List.mem_cons_self
    simp only [List.head?_cons, Option.map_some, addMSELoop, hm.value, Option.bind_some,
      hm.next, SetOfMonads.addMSELoop]
    split
    · have hsep' : Sep (ps ++ vs) := by
        obtain ⟨h₁, h₂, h₃⟩ := sep_append.mp hsep
        exact sep_append.mpr
          ⟨h₁, (sep_cons.mp h₂).2, fun p hp r hr => h₃ p hp r (List.mem_cons_of_mem v hr)⟩
      refine addMSELoop_spec vs ps fuel _ _ hm.erase (by simpa using hfuel) hsep' ?_
      intro p hp
      have h₁ := hps p hp
      have h₂ := hgap p hp
      rw [MonadSetElement.subsume_firstM]
      omega
    · rename_i htouch
      split
      · rename_i hpast
        rw [MonadSetElement.past_iff] at hpast
        refine ⟨m, current, rfl, ?_⟩
        refine hm.insert (fun p hp => SetOfMonads.Sep.firstM_lt (hps p hp)) ?_
        intro r hr
        have h₁ := current.first_le_last
        rcases List.mem_cons.mp hr with rfl | hr
        · omega
        · have h₂ := (sep_cons.mp (sep_append.mp hsep).2.1).1 r hr
          have h₃ := v.first_le_last
          simp only [MonadSetElement.spanned_lo, MonadSetElement.spanned_hi] at h₂
          omega
      · rename_i hpast
        have hps' : ∀ p ∈ ps ++ [v], p.lastM + 1 < current.firstM := by
          intro p hp
          rcases List.mem_append.mp hp with hp | hp
          · exact hps p hp
          · rw [List.mem_singleton.mp hp]
            exact SetOfMonads.gap_before htouch hpast
        obtain ⟨m', current', hloop, hres⟩ := addMSELoop_spec vs (ps ++ [v]) fuel m current
          hm.snoc (by simpa using hfuel) (by simpa using hsep) hps'
        exact ⟨m', current', hloop, by simpa using hres⟩

/-- **The map after `addMSE` holds the list after `addMSE`**, in each branch. -/
theorem addMSEMap_spec {s : SetOfMonads} (h : s.RepInv) (mse : MonadSetElement) :
    ∃ m, (ofSetOfMonads s).addMSEMap mse = some m ∧ Holds m (s.addMSEList mse) := by
  have hm := holds_ofSetOfMonads h.sep
  have hmse := mse.first_le_last
  unfold addMSEMap SetOfMonads.addMSEList
  rw [hm.back, hm.front]
  rcases List.eq_nil_or_concat s.monadMs with hnil | ⟨init, back, hl⟩
  · rw [hnil] at hm ⊢
    exact ⟨_, rfl, Holds.insert (show Holds _ ([] ++ []) from hm) (by simp) (by simp)⟩
  · rw [List.concat_eq_append] at hl
    obtain ⟨front, rest, hfr⟩ := List.exists_cons_of_ne_nil (l := s.monadMs) (by simp [hl])
    have hback : s.monadMs.getLast? = some back := by rw [hl]; simp
    have hfirst : s.mFirst = front.firstM := h.first_eq front (by rw [hfr]; rfl)
    have hsep := h.sep
    rw [hback, hfr]
    simp only [List.head?_cons]
    rw [← hfr]
    show ∃ m, (if mse.firstM > s.mLast + 1 then _ else _) = some m ∧ _
    split
    · -- past the end
      refine ⟨_, rfl, ?_⟩
      refine Holds.insert (show Holds _ (s.monadMs ++ []) by rwa [List.append_nil]) ?_ (by simp)
      intro p hp
      have h₁ := h.canonical.lastM_le hp
      have h₂ := p.first_le_last
      omega
    · split
      · -- the last element is widened
        rename_i hge
        rw [hl] at hm hsep
        have hmin : (back.subsume mse).firstM = back.firstM := by
          rw [MonadSetElement.subsume_firstM]
          omega
        have hprev : (ofSetOfMonads s).monadMs.prev none = some back.firstM :=
          Holds.prev (show Holds _ ((init ++ [back]) ++ []) by rwa [List.append_nil])
        have herase : Holds ((ofSetOfMonads s).monadMs.erase back.firstM) (init ++ []) := hm.erase
        rw [hprev, Option.map_some]
        refine ⟨_, rfl, ?_⟩
        rw [hl, List.dropLast_concat]
        refine herase.insert ?_ (by simp)
        intro p hp
        rw [hmin]
        exact SetOfMonads.Sep.firstM_lt
          ((sep_append.mp hsep).2.2 p hp back (List.mem_singleton.mpr rfl))
      · show ∃ m, (if mse.lastM = s.mFirst - 1 then _ else _) = some m ∧ _
        rw [hfr] at hm hsep ⊢
        split
        · -- the first element is widened
          have hmin : (front.subsume mse).firstM ≤ front.firstM := by
            rw [MonadSetElement.subsume_firstM]
            omega
          rw [hm.begin]
          refine ⟨_, rfl, ?_⟩
          have hm' : Holds (ofSetOfMonads s).monadMs ([] ++ front :: rest) := hm
          refine hm'.replace (by simp) ?_
          intro v hv
          have := SetOfMonads.Sep.firstM_lt ((sep_cons.mp hsep).1 v hv)
          omega
        · show ∃ m, (if mse.lastM < s.mFirst - 1 then _ else _) = some m ∧ _
          split
          · -- before the beginning
            rw [SetOfMonads.addMSELoop_of_past (by omega)]
            refine ⟨_, rfl, Holds.insert (show Holds _ ([] ++ front :: rest) from hm) (by simp) ?_⟩
            intro v hv
            rcases List.mem_cons.mp hv with rfl | hv
            · omega
            · have := SetOfMonads.Sep.firstM_lt ((sep_cons.mp hsep).1 v hv)
              omega
          · -- somewhere between
            obtain ⟨ps, vs, hpv, hps, hit⟩ := hm.upperBoundBack hsep (mse.firstM - 1)
            rw [hpv] at hm hsep ⊢
            obtain ⟨m', current', hloop, hres⟩ := addMSELoop_spec vs ps
              ((ofSetOfMonads s).monadMs.size + 1) _ mse hm
              (by rw [hm.size, List.length_append]; omega) hsep
              (fun p hp => by have := hps p hp; omega)
            rw [hit, hloop, Option.map_some, SetOfMonads.addMSELoop_append _
              (fun p hp => by have := hps p hp; omega)]
            exact ⟨_, rfl, hres⟩

/-- **`addMSE`.** -/
theorem addMSE_ofSetOfMonads {s : SetOfMonads} (h : s.RepInv) {mse : MonadSetElement}
    (hmse : InRange mse) :
    (ofSetOfMonads s).addMSE mse = some (ofSetOfMonads (s.addMSE mse)) := by
  obtain ⟨m, hm, hholds⟩ := addMSEMap_spec h mse
  obtain ⟨hrep, hmem⟩ := SetOfMonads.addMSE_spec h hmse
  have hne : (s.addMSE mse).monadMs ≠ [] := by
    intro hnil
    rw [SetOfMonads.mem_eq_empty.mpr hnil] at hmem
    have : mse.firstM ∈ s.mem ∪ points mse := Or.inr ⟨le_refl _, mse.first_le_last⟩
    rw [← hmem] at this
    exact this
  rw [addMSE, hm, Option.bind_some]
  exact checkBounds_of_holds hrep hne hholds

/-- Loops that add elements one after the other. -/
theorem addAll_ofSetOfMonads : ∀ (l : List MonadSetElement) {s : SetOfMonads}, s.RepInv →
    (∀ e ∈ l, InRange e) →
      (ofSetOfMonads s).addAll l = some (ofSetOfMonads (l.foldl SetOfMonads.addMSE s))
  | [], _, _, _ => rfl
  | e :: l, s, h, hin => by
    have he := hin e List.mem_cons_self
    have ih := addAll_ofSetOfMonads l (SetOfMonads.addMSE_spec h he).1
      (fun r hr => hin r (List.mem_cons_of_mem _ hr))
    rw [addAll, List.foldlM_cons, addMSE_ofSetOfMonads h he]
    exact ih

/-! ## 5. `removeMSE` -/

/-- Past the range the loop stops at once. -/
theorem removeMSELoop_of_past {bFirst bLast : Int} (hb : bFirst ≤ bLast) {ps vs : List
    MonadSetElement} {m : OrdMap Int MonadSetElement} {fuel : Nat} (hm : Holds m (ps ++ vs))
    (hvs : ∀ v ∈ vs, bLast < v.firstM) :
    removeMSELoop bFirst bLast (fuel + 1) m (vs.head?.map (·.firstM)) = some m := by
  cases vs with
  | nil => rfl
  | cons v vs =>
    have h₁ := hvs v List.mem_cons_self
    have h₂ := v.first_le_last
    simp only [List.head?_cons, Option.map_some, removeMSELoop, hm.value, Option.bind_some]
    rw [if_neg (by omega), if_pos h₁]

/-- One more element that ends before the range is stepped over. -/
theorem removeMSELoop_step {bFirst bLast : Int} {ps vs : List MonadSetElement}
    {v : MonadSetElement} {m : OrdMap Int MonadSetElement} {fuel : Nat}
    (hm : Holds m (ps ++ v :: vs)) (hv : v.lastM < bFirst) :
    removeMSELoop bFirst bLast (fuel + 1) m (some v.firstM)
      = removeMSELoop bFirst bLast fuel m (vs.head?.map (·.firstM)) := by
  simp only [removeMSELoop, hm.value, Option.bind_some]
  rw [if_pos hv, hm.next]

/-- Starting over from `B_first` leads back to where the erased element was: the element
before it, which ends before the range, is visited once more. -/
theorem removeMSELoop_again {bFirst : Int} (bLast : Int) {ps vs : List MonadSetElement}
    {m : OrdMap Int MonadSetElement} (fuel : Nat) (hm : Holds m (ps ++ vs))
    (hps : ∀ p ∈ ps, p.lastM < bFirst) (hvs : ∀ v ∈ vs, bFirst < v.firstM) :
    ∃ fuel', fuel ≤ fuel' ∧
      removeMSELoop bFirst bLast (fuel + 1) m (upperBoundBack m bFirst)
        = removeMSELoop bFirst bLast fuel' m (vs.head?.map (·.firstM)) := by
  have hub : m.upperBound bFirst = vs.head?.map (·.firstM) := by
    have hm' : m.entries = (ps.map fun e => (e.firstM, e)) ++ vs.map fun e => (e.firstM, e) := by
      rw [hm, List.map_append]
    rw [OrdMap.upperBound_split hm']
    · cases vs <;> rfl
    · intro e he
      obtain ⟨p, hp, rfl⟩ := List.mem_map.mp he
      have h₁ := hps p hp
      have h₂ := p.first_le_last
      simp only
      omega
    · intro e he
      obtain ⟨v, hv, rfl⟩ := List.mem_map.mp he
      exact hvs v hv
  unfold upperBoundBack
  simp only [hub, hm.begin]
  split
  · rcases List.eq_nil_or_concat ps with rfl | ⟨ps, q, rfl⟩
    · rename_i hne
      exact absurd rfl hne
    · rw [List.concat_eq_append] at *
      have hm' : Holds m (ps ++ q :: vs) := by simpa using hm
      rw [hm.prev]
      exact ⟨fuel, le_refl _, removeMSELoop_step hm'
        (hps q (List.mem_append_right ps (List.mem_singleton.mpr rfl)))⟩
  · exact ⟨fuel + 1, Nat.le_succ fuel, rfl⟩

/-- **The loop of `removeMSE` on the map is the loop on the list.**  Each element from the
iterator on costs two rounds at most, itself and a step back. -/
theorem removeMSELoop_spec {bFirst bLast : Int} (hb : bFirst ≤ bLast) :
    ∀ (vs ps : List MonadSetElement) (fuel : Nat) (m : OrdMap Int MonadSetElement),
      Holds m (ps ++ vs) → 2 * vs.length < fuel → Sep (ps ++ vs) →
        (∀ p ∈ ps, p.lastM < bFirst) →
        ∃ m', removeMSELoop bFirst bLast fuel m (vs.head?.map (·.firstM)) = some m' ∧
          Holds m' (ps ++ SetOfMonads.removeMSELoop bFirst bLast vs)
  | [], _, _ + 1, m, hm, _, _, _ => ⟨m, rfl, hm⟩
  | v :: vs, ps, fuel + 1, m, hm, hfuel, hsep, hps => by
    have hv := v.first_le_last
    have hgap : ∀ p ∈ ps, p.lastM + 1 < v.firstM := fun p hp =>
      (sep_append.mp hsep).2.2 p hp v List.mem_cons_self
    have hafter : ∀ r ∈ vs, v.lastM + 1 < r.firstM := (sep_cons.mp (sep_append.mp hsep).2.1).1
    have hsep' : Sep (ps ++ vs) := by
      obtain ⟨h₁, h₂, h₃⟩ := sep_append.mp hsep
      exact sep_append.mpr
        ⟨h₁, (sep_cons.mp h₂).2, fun p hp r hr => h₃ p hp r (List.mem_cons_of_mem v hr)⟩
    simp only [List.length_cons] at hfuel
    simp only [List.head?_cons, Option.map_some]
    by_cases h₁ : v.lastM < bFirst
    · -- case 1: the element is kept
      have hps' : ∀ p ∈ ps ++ [v], p.lastM < bFirst := by
        intro p hp
        rcases List.mem_append.mp hp with hp | hp
        · exact hps p hp
        · rwa [List.mem_singleton.mp hp]
      obtain ⟨m', hloop, hres⟩ := removeMSELoop_spec hb vs (ps ++ [v]) fuel m
        hm.snoc (by omega) (by simpa using hsep) hps'
      refine ⟨m', ?_, ?_⟩
      · rw [removeMSELoop_step hm h₁, hloop]
      · rw [SetOfMonads.removeMSELoop, if_pos h₁]
        simpa using hres
    · simp only [removeMSELoop, hm.value, Option.bind_some, if_neg h₁, SetOfMonads.removeMSELoop]
      by_cases h₅ : v.firstM > bLast
      · -- case 5: done
        rw [if_pos h₅, if_pos h₅]
        exact ⟨m, rfl, hm⟩
      · rw [if_neg h₅, if_neg h₅]
        by_cases h₃ : v.firstM ≥ bFirst ∧ v.lastM ≤ bLast
        · -- case 3: the element is erased and the search starts over
          rw [if_pos h₃, if_pos h₃]
          obtain ⟨k, hk⟩ : ∃ k, fuel = k + 1 := ⟨fuel - 1, by omega⟩
          obtain ⟨fuel', hle, hagain⟩ := removeMSELoop_again bLast k
            hm.erase hps (fun r hr => by have := hafter r hr; omega)
          rw [hk, hagain]
          exact removeMSELoop_spec hb vs ps fuel' _ hm.erase (by omega) hsep' hps
        · rw [if_neg h₃, if_neg h₃]
          by_cases h₆ : v.firstM < bFirst ∧ v.lastM > bLast
          · -- case 6: the element is split
            obtain ⟨ht₁, ht₂⟩ :=
              SetOfMonads.truncate_of_lt (a := v) bLast h₆.1
            rw [dif_pos h₆, dif_pos h₆]
            refine ⟨_, rfl, ?_⟩
            have hcut := hm.replace (e := v.truncate bFirst bLast)
              (fun p hp => by rw [ht₁]; exact SetOfMonads.Sep.firstM_lt (hgap p hp))
              (fun r hr => by have := hafter r hr; omega)
            have := hcut.snoc.insert (e := ⟨bLast + 1, v.lastM, by omega⟩) ?_ ?_
            · simpa using this
            · intro p hp
              rcases List.mem_append.mp hp with hp | hp
              · have h₈ := hps p hp
                have h₉ := p.first_le_last
                simp only
                omega
              · rw [List.mem_singleton.mp hp, ht₁]
                simp only
                omega
            · intro r hr
              have := hafter r hr
              simp only
              omega
          · rw [dif_neg h₆, dif_neg h₆, hm.next]
            by_cases h₂ : v.firstM < bFirst
            · -- case 2: the end of the element is cut away
              obtain ⟨ht₁, ht₂⟩ :=
                SetOfMonads.truncate_of_lt (a := v) bLast h₂
              rw [if_pos h₂]
              have hcut := hm.replace (e := v.truncate bFirst bLast)
                (fun p hp => by rw [ht₁]; exact SetOfMonads.Sep.firstM_lt (hgap p hp))
                (fun r hr => by have := hafter r hr; omega)
              have hsepcut : Sep ((ps ++ [v.truncate bFirst bLast]) ++ vs) := by
                obtain ⟨hs₁, hs₂, hs₃⟩ := sep_append.mp hsep'
                refine sep_append.mpr ⟨sep_append.mpr ⟨hs₁, sep_singleton _, ?_⟩, hs₂, ?_⟩
                · intro p hp r hr
                  rw [List.mem_singleton.mp hr]
                  simp only [MonadSetElement.spanned_lo, MonadSetElement.spanned_hi, ht₁]
                  exact hgap p hp
                · intro p hp r hr
                  rcases List.mem_append.mp hp with hp | hp
                  · exact hs₃ p hp r hr
                  · rw [List.mem_singleton.mp hp]
                    have := hafter r hr
                    simp only [MonadSetElement.spanned_lo, MonadSetElement.spanned_hi, ht₂]
                    omega
              have hps' : ∀ p ∈ ps ++ [v.truncate bFirst bLast], p.lastM < bFirst := by
                intro p hp
                rcases List.mem_append.mp hp with hp | hp
                · exact hps p hp
                · rw [List.mem_singleton.mp hp, ht₂]
                  omega
              obtain ⟨m', hloop, hres⟩ := removeMSELoop_spec hb vs
                (ps ++ [v.truncate bFirst bLast]) fuel _ hcut.snoc (by omega) hsepcut hps'
              exact ⟨m', hloop, by simpa using hres⟩
            · -- case 4: the beginning of the element is cut away, and the rest is past
              obtain ⟨ht₁, ht₂⟩ :=
                SetOfMonads.truncate_of_ge (a := v) h₂ (show v.lastM > bLast by omega)
              have hpast : ∀ r ∈ vs, bLast < r.firstM := fun r hr => by
                have := hafter r hr
                omega
              rw [if_neg h₂, SetOfMonads.removeMSELoop_of_past hb hpast]
              have hcut := hm.replace (e := v.truncate bFirst bLast)
                (fun p hp => by have := SetOfMonads.Sep.firstM_lt (hgap p hp); omega)
                (fun r hr => by have := hafter r hr; omega)
              obtain ⟨k, hk⟩ : ∃ k, fuel = k + 1 := ⟨fuel - 1, by omega⟩
              rw [hk, removeMSELoop_of_past hb hcut.snoc hpast]
              exact ⟨_, rfl, hcut⟩

/-- The bounds are set from what the map holds. -/
theorem setBounds_of_holds {l : List MonadSetElement} (hsep : Sep l)
    {m : OrdMap Int MonadSetElement} (hm : Holds m l) :
    setBounds m = ofSetOfMonads (SetOfMonads.setBounds l) := by
  rw [← eq_ofSetOfMonads (s := SetOfMonads.setBounds l) hsep hm]
  have hfront := hm.front
  have hback := hm.back
  cases hhead : l.head? <;> cases hlast : l.getLast? <;>
    simp [setBounds, SetOfMonads.setBounds, hfront, hback, hhead, hlast]

/-- **`removeMSE`.** -/
theorem removeMSE_ofSetOfMonads {s : SetOfMonads} (h : s.RepInv) (b : MonadSetElement) :
    (ofSetOfMonads s).removeMSE b = some (ofSetOfMonads (s.removeMSE b)) := by
  have hb := b.first_le_last
  have hm := holds_ofSetOfMonads h.sep
  unfold removeMSE SetOfMonads.removeMSE SetOfMonads.removeRange
  rw [isEmpty_ofSetOfMonads h.sep]
  split
  · rfl
  · obtain ⟨ps, vs, hpv, hps, hit⟩ := hm.upperBoundBack h.sep b.firstM
    have hps' : ∀ p ∈ ps, p.lastM < b.firstM := fun p hp => by have := hps p hp; omega
    have hsep := h.sep
    have hres := SetOfMonads.sep_removeMSELoop hb s.monadMs hsep
    rw [hpv] at hm hsep hres ⊢
    obtain ⟨m', hloop, hholds⟩ := removeMSELoop_spec hb vs ps
      (2 * (ofSetOfMonads s).monadMs.size + 1) _ hm
      (by rw [hm.size, List.length_append]; omega) hsep hps'
    rw [SetOfMonads.removeMSELoop_append hps'] at hres ⊢
    rw [hit, hloop, Option.map_some, setBounds_of_holds hres hholds]

theorem foldlM_removeMSE_ofSetOfMonads : ∀ (l : List MonadSetElement) {s : SetOfMonads},
    s.RepInv → l.foldlM removeMSE (ofSetOfMonads s)
      = some (ofSetOfMonads (l.foldl SetOfMonads.removeMSE s))
  | [], _, _ => rfl
  | b :: l, s, h => by
    have ih := foldlM_removeMSE_ofSetOfMonads l (SetOfMonads.removeMSE_spec h b).1
    rw [List.foldlM_cons, removeMSE_ofSetOfMonads h b]
    exact ih

/-! ## 6. The other updates -/

/-- **`unionWith`.** -/
theorem unionWith_ofSetOfMonads {s other : SetOfMonads} (h : s.RepInv) (ho : other.RepInv) :
    (ofSetOfMonads s).unionWith (ofSetOfMonads other)
      = some (ofSetOfMonads (s.unionWith other)) := by
  rw [unionWith, elements_ofSetOfMonads ho.sep]
  exact addAll_ofSetOfMonads other.monadMs h ho.inRange

/-- The overload of `unionWith` for a plain set. -/
theorem unionWithSetOfMonads_ofSetOfMonads {s other : SetOfMonads} (h : s.RepInv)
    (ho : other.RepInv) :
    (ofSetOfMonads s).unionWithSetOfMonads other
      = some (ofSetOfMonads (s.unionWith other)) :=
  addAll_ofSetOfMonads other.monadMs h ho.inRange

/-- **`difference`.** -/
theorem difference_ofSetOfMonads {s other : SetOfMonads} (h : s.RepInv) (ho : other.RepInv) :
    (ofSetOfMonads s).difference (ofSetOfMonads other)
      = some (ofSetOfMonads (s.difference other)) := by
  rw [difference, elements_ofSetOfMonads ho.sep]
  exact foldlM_removeMSE_ofSetOfMonads other.monadMs h

/-- **`intersect`.** -/
theorem intersect_ofSetOfMonads {s other : SetOfMonads} (h : s.RepInv) (ho : other.RepInv) :
    intersect (ofSetOfMonads s) (ofSetOfMonads other)
      = some (ofSetOfMonads (SetOfMonads.intersect s other)) := by
  unfold intersect SetOfMonads.intersect
  rw [isEmpty_ofSetOfMonads h.sep, isEmpty_ofSetOfMonads ho.sep, elements_ofSetOfMonads h.sep,
    elements_ofSetOfMonads ho.sep]
  split
  · rfl
  · refine addAll_ofSetOfMonads _ SetOfMonads.repInv_empty (SetOfMonads.inRange_of_cover ?_)
    intro m hm
    rw [SetOfMonads.cover_intersectPieces _ _ h.sep ho.sep] at hm
    exact SetOfMonads.inRange_of_mem_cover h.inRange hm.1

/-- What `fillGaps` adds: no range is the wrong way round, and all are in range. -/
theorem fillGapsPieces_spec (minGap : Int) : ∀ (l : List MonadSetElement) (prevLast : Int),
    Sep l → (∀ e ∈ l, InRange e) → 0 ≤ prevLast → (∀ e ∈ l, prevLast ≤ e.lastM) →
      ∃ pieces, SetOfMonads.fillGapsPieces minGap prevLast l = some pieces ∧
        ∀ e ∈ pieces, InRange e
  | [], _, _, _, _, _ => ⟨[], rfl, by simp⟩
  | cur :: rest, prevLast, hsep, hin, h0, hle => by
    have hcur := hin cur List.mem_cons_self
    have hrest : ∀ e ∈ rest, cur.lastM ≤ e.lastM := by
      intro e he
      have h₁ := (sep_cons.mp hsep).1 e he
      have h₂ := e.first_le_last
      simp only [MonadSetElement.spanned_lo, MonadSetElement.spanned_hi] at h₁
      omega
    obtain ⟨pieces, hpieces, hrange⟩ := fillGapsPieces_spec minGap rest cur.lastM
      (sep_cons.mp hsep).2 (fun e he => hin e (List.mem_cons_of_mem cur he))
      (le_trans h0 (hle cur List.mem_cons_self)) hrest
    simp only [SetOfMonads.fillGapsPieces]
    split
    · refine ⟨cur :: pieces, by rw [hpieces]; rfl, ?_⟩
      intro e he
      rcases List.mem_cons.mp he with rfl | he
      · exact hcur
      · exact hrange e he
    · have hpl := hle cur List.mem_cons_self
      rw [MonadSetElement.range_of_le hpl, hpieces]
      refine ⟨⟨prevLast, cur.lastM, hpl⟩ :: pieces, rfl, ?_⟩
      intro e he
      rcases List.mem_cons.mp he with rfl | he
      · exact ⟨h0, hcur.2⟩
      · exact hrange e he

/-- **`fillGaps`**, which never fails. -/
theorem fillGaps_ofSetOfMonads {s : SetOfMonads} (h : s.RepInv) (minGap : Int) :
    ∃ s', s.fillGaps minGap = some s' ∧ s'.RepInv ∧
      (ofSetOfMonads s).fillGaps minGap = some (ofSetOfMonads s') := by
  unfold SetOfMonads.fillGaps fillGaps
  rw [elements_ofSetOfMonads h.sep]
  cases hl : s.monadMs with
  | nil => exact ⟨_, rfl, SetOfMonads.repInv_empty, rfl⟩
  | cons cur rest =>
    have hsep := h.sep
    have hin := h.inRange
    rw [hl] at hsep hin
    have hcur := hin cur List.mem_cons_self
    have hfl := cur.first_le_last
    obtain ⟨pieces, hpieces, hrange⟩ := fillGapsPieces_spec minGap rest cur.lastM
      (sep_cons.mp hsep).2 (fun e he => hin e (List.mem_cons_of_mem cur he))
      (le_trans hcur.1 hfl) (by
        intro e he
        have h₁ := (sep_cons.mp hsep).1 e he
        have h₂ := e.first_le_last
        simp only [MonadSetElement.spanned_lo, MonadSetElement.spanned_hi] at h₁
        omega)
    have hone := (SetOfMonads.addMSE_spec SetOfMonads.repInv_empty hcur).1
    simp only [hpieces, Option.map_some, Option.bind_some]
    refine ⟨_, rfl, (SetOfMonads.foldl_addMSE_spec pieces hone hrange).1, ?_⟩
    rw [← ofSetOfMonads_empty, addMSE_ofSetOfMonads SetOfMonads.repInv_empty hcur]
    exact addAll_ofSetOfMonads pieces hone hrange

/-- **`offset`**, which rebuilds the set and so is right for the empty one too. -/
theorem offset_ofSetOfMonads {s : SetOfMonads} (h : s.RepInv) {m : Int}
    (hin : ∀ e ∈ s.monadMs, InRange (e.offset m)) :
    ∃ s', s'.RepInv ∧ (ofSetOfMonads s).offset m = some (ofSetOfMonads s') := by
  have hin' : ∀ e ∈ s.monadMs.map fun mse => mse.offset m, InRange e := by
    intro e he
    obtain ⟨e', he', rfl⟩ := List.mem_map.mp he
    exact hin e' he'
  refine ⟨_, (SetOfMonads.foldl_addMSE_spec _ SetOfMonads.repInv_empty hin').1, ?_⟩
  rw [offset, elements_ofSetOfMonads h.sep, ← ofSetOfMonads_empty]
  exact addAll_ofSetOfMonads _ SetOfMonads.repInv_empty hin'

/-! ## 7. `removeMonadsBefore` -/

/-- `monad` lies inside an element, past its first monad, and that element is not the last. -/
def CutsInside (f : FastSetOfMonads) (monad : Int) : Prop :=
  ∃ e ∈ f.elements.dropLast, e.firstM < monad ∧ monad ≤ e.lastM

instance (f : FastSetOfMonads) (monad : Int) : Decidable (f.CutsInside monad) :=
  inferInstanceAs (Decidable (∃ e ∈ f.elements.dropLast, e.firstM < monad ∧ monad ≤ e.lastM))

/-- The monads from `monad` on, when the list splits there. -/
theorem cover_from {ps vs : List MonadSetElement} {monad : Int}
    (hps : ∀ p ∈ ps, p.lastM < monad) (hvs : ∀ v ∈ vs, monad ≤ v.firstM) :
    cover vs = {m ∈ cover (ps ++ vs) | monad ≤ m} := by
  ext m
  simp only [mem_cover_append, Set.mem_ofPred_eq]
  constructor
  · rintro ⟨v, hv, h₁, h₂⟩
    have := hvs v hv
    simp only [MonadSetElement.spanned_lo] at h₁
    exact ⟨Or.inr ⟨v, hv, h₁, h₂⟩, by omega⟩
  · rintro ⟨⟨p, hp, h₁, h₂⟩ | hm, hge⟩
    · have := hps p hp
      simp only [MonadSetElement.spanned_hi] at h₂
      omega
    · exact hm

/-- ...and when `monad` lies inside an element. -/
theorem cover_inside {ps vs : List MonadSetElement} {p : MonadSetElement} {monad : Int}
    (hsep : Sep (ps ++ p :: vs)) (hlt : p.firstM < monad) (hle : monad ≤ p.lastM) :
    cover ((⟨monad, p.lastM, hle⟩ : MonadSetElement) :: vs)
      = {m ∈ cover (ps ++ p :: vs) | monad ≤ m} := by
  obtain ⟨-, hsep', hgap⟩ := sep_append.mp hsep
  ext m
  have hps : m ∈ cover ps → m + 1 < p.firstM := by
    rintro ⟨q, hq, -, hqm⟩
    have := hgap q hq p List.mem_cons_self
    simp only [MonadSetElement.spanned_lo, MonadSetElement.spanned_hi] at this hqm
    omega
  have hvs : m ∈ cover vs → p.lastM + 1 < m := fun hm => hsep'.tail_gt hm
  simp only [Set.mem_ofPred_eq, mem_cover_append]
  rw [SetOfMonads.mem_cover_cons_iff, SetOfMonads.mem_cover_cons_iff]
  simp only
  grind

section RemoveMonadsBefore

variable {s : SetOfMonads} {ps vs : List MonadSetElement} {p v : MonadSetElement} {monad : Int}

theorem cutsInside_ofSetOfMonads (h : s.RepInv) :
    (ofSetOfMonads s).CutsInside monad ↔
      ∃ e ∈ s.monadMs.dropLast, e.firstM < monad ∧ monad ≤ e.lastM := by
  rw [CutsInside, elements_ofSetOfMonads h.sep]

theorem mem_ofSetOfMonads (h : s.RepInv) : (ofSetOfMonads s).mem = s.mem := by
  rw [mem, elements_ofSetOfMonads h.sep, SetOfMonads.mem]

theorem repInv_suffix (h : s.RepInv) (hl : s.monadMs = ps ++ vs) :
    (SetOfMonads.setBounds vs).RepInv := by
  have hsep := h.sep
  have hin := h.inRange
  rw [hl] at hsep hin
  exact SetOfMonads.repInv_setBounds (sep_append.mp hsep).2.1
    fun e he => hin e (List.mem_append_right ps he)

/-- A suffix that is not empty has the upper bound of the whole. -/
theorem setBounds_suffix_mLast (h : s.RepInv) (hl : s.monadMs = ps ++ v :: vs) :
    (SetOfMonads.setBounds (v :: vs)).mLast = s.mLast := by
  rw [h.eq_setBounds, hl]
  simp only [SetOfMonads.setBounds]
  rw [List.getLast?_append_cons]

/-- What is kept when `monad` separates the elements: the right monads, the invariant, and no
element was cut. -/
theorem kept_suffix (h : s.RepInv) (hl : s.monadMs = ps ++ vs)
    (hps : ∀ p ∈ ps, p.lastM < monad) (hvs : ∀ v ∈ vs, monad ≤ v.firstM) :
    (ofSetOfMonads (SetOfMonads.setBounds vs)).mem = {m ∈ s.mem | monad ≤ m} ∧
      ((ofSetOfMonads (SetOfMonads.setBounds vs)).RepInv ↔
        ¬ (ofSetOfMonads s).CutsInside monad) := by
  have hrep := repInv_suffix h hl
  refine ⟨?_, iff_of_true (repInv_ofSetOfMonads hrep) ?_⟩
  · rw [mem_ofSetOfMonads hrep, SetOfMonads.mem, SetOfMonads.mem, hl]
    exact cover_from hps hvs
  · rw [cutsInside_ofSetOfMonads h, hl]
    rintro ⟨e, he, h₁, h₂⟩
    rcases List.mem_append.mp ((List.dropLast_sublist _).subset he) with he | he
    · have := hps e he
      omega
    · have := hvs e he
      omega

/-- Erasing what is before an element passes the assertion. -/
theorem checkBounds_suffix (h : s.RepInv) (hl : s.monadMs = ps ++ v :: vs)
    {m : OrdMap Int MonadSetElement} (hm : Holds m (v :: vs)) :
    checkBounds ⟨m, v.firstM, s.mLast⟩
      = some (ofSetOfMonads (SetOfMonads.setBounds (v :: vs))) := by
  rw [← checkBounds_of_holds (repInv_suffix h hl) (by simp) hm, ← setBounds_suffix_mLast h hl]
  rfl

/-- The elements after an element was cut under its key. -/
theorem entries_cut {m : OrdMap Int MonadSetElement} (hm : Holds m (ps ++ p :: vs))
    (hle : monad ≤ p.lastM) :
    ((m.modify p.firstM fun _ => ⟨monad, p.lastM, hle⟩).eraseBefore (some p.firstM)).entries
      = (p.firstM, ⟨monad, p.lastM, hle⟩) :: vs.map fun e => (e.firstM, e) :=
  OrdMap.eraseBefore_at (OrdMap.modify_at hm.split _)

/-- Cutting at the first monad of an element changes nothing but the bound. -/
theorem cutAt_start (h : s.RepInv) (hl : s.monadMs = ps ++ v :: vs) (heq : v.firstM = monad)
    (hle : monad ≤ v.lastM) :
    (ofSetOfMonads s).cutAt monad v.firstM v hle
      = some (ofSetOfMonads (SetOfMonads.setBounds (v :: vs))) := by
  have hm := holds_ofSetOfMonads h.sep
  rw [hl] at hm
  subst heq
  exact checkBounds_suffix h hl (entries_cut hm hle)

/-- **Cutting inside an element that is not the last**: the assertion passes, the monads are
right, and the element's key is no longer its first monad. -/
theorem cutAt_inside (h : s.RepInv) (hl : s.monadMs = ps ++ p :: v :: vs)
    (hlt : p.firstM < monad) (hle : monad ≤ p.lastM) :
    ∃ f', (ofSetOfMonads s).cutAt monad p.firstM p hle = some f' ∧
      f'.mem = {m ∈ s.mem | monad ≤ m} ∧
      (f'.RepInv ↔ ¬ (ofSetOfMonads s).CutsInside monad) := by
  have hm := holds_ofSetOfMonads h.sep
  have hsep := h.sep
  rw [hl] at hm hsep
  have hlast := setBounds_suffix_mLast h (show s.monadMs = (ps ++ [p]) ++ v :: vs by simpa using hl)
  obtain ⟨back, hb⟩ : ∃ back, (v :: vs).getLast? = some back :=
    ⟨_, List.getLast?_eq_some_getLast (by simp)⟩
  simp only [SetOfMonads.setBounds, hb] at hlast
  unfold cutAt
  obtain ⟨m', hm'⟩ : ∃ m', m' = ((ofSetOfMonads s).monadMs.modify p.firstM
      fun _ => ⟨monad, p.lastM, hle⟩).eraseBefore (some p.firstM) := ⟨_, rfl⟩
  have hentries := entries_cut hm hle
  rw [← hm'] at hentries ⊢
  have helems : m'.entries.map (·.2) = ⟨monad, p.lastM, hle⟩ :: v :: vs := by
    rw [hentries, List.map_cons, List.map_map]
    exact congrArg _ (List.map_id _)
  have hfront : m'.front.map (·.firstM) = some monad := by
    rw [OrdMap.front, hentries]
    rfl
  have hback : m'.back.map (·.lastM) = some s.mLast := by
    rw [OrdMap.back, ← List.getLast?_map, helems, List.getLast?_cons_cons, hb, ← hlast]
    rfl
  refine ⟨⟨m', monad, s.mLast⟩, if_pos ⟨hfront, hback⟩, ?_, iff_of_false ?_ ?_⟩
  · rw [mem, elements, helems, SetOfMonads.mem, hl]
    exact cover_inside hsep hlt hle
  · intro hrep
    have hkey : p.firstM = monad := hrep.key_eq (p.firstM, ⟨monad, p.lastM, hle⟩) (by
      simp only [hentries]
      exact List.mem_cons_self)
    omega
  · rw [not_not, cutsInside_ofSetOfMonads h, hl]
    exact ⟨p, by simp [List.dropLast_append_of_ne_nil], hlt, hle⟩

/-- When `monad` lies inside the last element, the set is built anew. -/
theorem rebuilt_last (h : s.RepInv) (hl : s.monadMs = ps ++ [p]) (hlt : p.firstM < monad)
    (hle : monad ≤ p.lastM) :
    ∃ f', ((empty.add monad p.lastM).bind fun result =>
        checkBounds { result with mFirst := monad, mLast := p.lastM }) = some f' ∧
      f'.mem = {m ∈ s.mem | monad ≤ m} ∧
      (f'.RepInv ↔ ¬ (ofSetOfMonads s).CutsInside monad) := by
  have hin : InRange p := h.inRange p (by rw [hl]; simp)
  have hpr : InRange ⟨monad, p.lastM, hle⟩ := by
    have := hin.1
    exact ⟨by simp only; omega, hin.2⟩
  have hrep : (SetOfMonads.setBounds [⟨monad, p.lastM, hle⟩]).RepInv :=
    SetOfMonads.repInv_setBounds (sep_singleton _) (by simpa using hpr)
  have hcov : cover [(⟨monad, p.lastM, hle⟩ : MonadSetElement)] = {m ∈ s.mem | monad ≤ m} := by
    have hsep := h.sep
    rw [hl] at hsep
    rw [SetOfMonads.mem, hl]
    exact cover_inside hsep hlt hle
  have hadd : empty.add monad p.lastM
      = some (ofSetOfMonads (SetOfMonads.setBounds [⟨monad, p.lastM, hle⟩])) := by
    obtain ⟨hr₁, hr₂⟩ := SetOfMonads.addMSE_spec SetOfMonads.repInv_empty hpr
    rw [add, MonadSetElement.range_of_le hle, Option.bind_some, ← ofSetOfMonads_empty,
      addMSE_ofSetOfMonads SetOfMonads.repInv_empty hpr]
    congr 2
    refine hr₁.ext hrep ?_
    rw [hr₂, SetOfMonads.mem_empty, Set.empty_union, SetOfMonads.mem,
      SetOfMonads.setBounds_monadMs, SetOfMonads.cover_cons, cover_nil, Set.union_empty]
  refine ⟨ofSetOfMonads (SetOfMonads.setBounds [⟨monad, p.lastM, hle⟩]), ?_, ?_, ?_⟩
  · rw [hadd, Option.bind_some]
    exact checkBounds_of_holds hrep (by simp) (holds_ofSetOfMonads hrep.sep)
  · rw [mem_ofSetOfMonads hrep]
    exact hcov
  · refine iff_of_true (repInv_ofSetOfMonads hrep) ?_
    rw [cutsInside_ofSetOfMonads h, hl, List.dropLast_concat]
    rintro ⟨e, he, -, hle'⟩
    have hsep := h.sep
    rw [hl] at hsep
    have := (sep_append.mp hsep).2.2 e he p (List.mem_singleton.mpr rfl)
    simp only [MonadSetElement.spanned_lo, MonadSetElement.spanned_hi] at this
    omega

/-- **`removeMonadsBefore`**: it never fails and keeps the right monads, and it keeps the
invariant exactly when it does not cut an element in two whose key it would have to change. -/
theorem removeMonadsBefore_spec (h : s.RepInv) (monad : Int) :
    ∃ f', (ofSetOfMonads s).removeMonadsBefore monad = some f' ∧
      f'.mem = {m ∈ s.mem | monad ≤ m} ∧
      (f'.RepInv ↔ ¬ (ofSetOfMonads s).CutsInside monad) := by
  have hm := holds_ofSetOfMonads h.sep
  have hsep := h.sep
  unfold removeMonadsBefore
  rw [isEmpty_ofSetOfMonads hsep]
  show ∃ f', (if s.isEmpty = true ∨ s.mLast < monad then _ else
    if s.mFirst ≤ monad - 1 then _ else _) = some f' ∧ _
  split
  · -- nothing is left
    rename_i hnone
    refine ⟨empty, rfl, kept_suffix h (List.append_nil s.monadMs).symm ?_ (by simp)⟩
    intro e he
    rcases hnone with hempty | hlast
    · rw [SetOfMonads.isEmpty_iff.mp hempty] at he
      exact absurd he (by simp)
    · have := h.canonical.lastM_le he
      omega
  · rename_i hsome
    rw [not_or] at hsome
    have hne : s.monadMs ≠ [] := fun hnil => hsome.1 (SetOfMonads.isEmpty_iff.mpr hnil)
    split
    · obtain ⟨ps, vs, hl, hps, hvs, hub⟩ := hm.upperBound (monad - 1)
      rename_i hbefore
      -- the first element starts before `monad`, so there is one before the iterator
      have hps' : ps ≠ [] := by
        rintro rfl
        obtain ⟨v, vs', hv⟩ := List.exists_cons_of_ne_nil hne
        have h₁ := h.first_eq v (by rw [hv]; rfl)
        have h₂ := hvs v (by rw [← List.nil_append vs, ← hl, hv]; exact List.mem_cons_self)
        omega
      obtain ⟨ps, p, rfl⟩ := (List.eq_nil_or_concat ps).resolve_left hps'
      rw [List.concat_eq_append] at *
      have hp := hps p (List.mem_append_right ps (List.mem_singleton.mpr rfl))
      rw [hl] at hm hsep
      have hgap : ∀ q ∈ ps, q.lastM + 1 < p.firstM := fun q hq =>
        (sep_append.mp (sep_append.mp hsep).1).2.2 q hq p (List.mem_singleton.mpr rfl)
      rw [hub]
      cases vs with
      | nil =>
        rw [List.append_nil] at hl hm
        have hlast : s.mLast = p.lastM := h.last_eq p (by rw [hl]; simp)
        have hback : (ofSetOfMonads s).monadMs.back = some p := by
          rw [hm.back]
          simp
        simp only [List.head?_nil, Option.map_none, hback, Option.bind_some]
        exact rebuilt_last h hl (by omega) (by omega)
      | cons v vs =>
        have hv := hvs v List.mem_cons_self
        have hfl := v.first_le_last
        simp only [List.head?_cons, Option.map_some, hm.value, Option.bind_some]
        by_cases hgt : v.firstM > monad
        · have hprev := hm.prev
          simp only [List.head?_cons, Option.map_some] at hprev
          have hm' : Holds (ofSetOfMonads s).monadMs (ps ++ p :: v :: vs) := by simpa using hm
          simp only [if_pos hgt, hprev, Option.bind_some, hm'.value]
          rw [if_neg (by omega)]
          by_cases hlt : p.lastM < monad
          · -- `monad` lies in a gap
            rw [dif_pos hlt, hm'.next]
            simp only [List.head?_cons, Option.map_some]
            rw [setBounds_of_holds (sep_append.mp hsep).2.1 hm.eraseBefore]
            have hrep := repInv_suffix h hl
            refine ⟨_, checkBounds_of_holds hrep (by simp) (holds_ofSetOfMonads hrep.sep),
              kept_suffix h hl ?_ (fun e he => by have := hvs e he; omega)⟩
            intro q hq
            rcases List.mem_append.mp hq with hq | hq
            · have := hgap q hq
              omega
            · rwa [List.mem_singleton.mp hq]
          · rw [dif_neg hlt]
            exact cutAt_inside h (by simpa using hl) (by omega) (by omega)
        · -- `monad` is the first monad of an element
          rw [if_neg hgt, dif_neg (by omega)]
          refine ⟨_, cutAt_start h hl (by omega) (by omega),
            kept_suffix h hl ?_ (fun e he => by have := hvs e he; omega)⟩
          intro q hq
          have := (sep_append.mp hsep).2.2 q hq v List.mem_cons_self
          simp only [MonadSetElement.spanned_lo, MonadSetElement.spanned_hi] at this
          omega
    · -- nothing is removed
      rename_i hfirst
      refine ⟨ofSetOfMonads s, checkBounds_of_holds h hne hm, ?_⟩
      have := kept_suffix (s := s) h (List.nil_append s.monadMs).symm (by simp)
        (show ∀ e ∈ s.monadMs, monad ≤ e.firstM from fun e he => by
          have := h.le_firstM he
          omega)
      rwa [← h.eq_setBounds] at this

end RemoveMonadsBefore

end FastSetOfMonads

end Emdros
