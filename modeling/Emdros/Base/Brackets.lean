/-
# Bracket sequences and sweeps over intervals

A sequence of opening and closing tags is well bracketed when a stack accepts it: every
closing tag closes what was opened last (`WellBracketed`).  A sweep goes over an ascending
list of positions; at each it opens the intervals that begin there and then closes the
intervals that end there, in orders of its own (`sweep`).

`wellBracketed_sweep_iff` says when a sweep is well bracketed: exactly when no two intervals
*cross*, that is, are opened in one order and closed in the same one while both are open.  The
stack is then always sorted by the order of closing, and this is the invariant of the
induction over the positions.

Nothing here is about a particular program.
-/
import Emdros.Base.Run
import Mathlib

namespace Brackets

/-! ## 1. Tags and the stack -/

/-- An opening or a closing tag. -/
inductive Tag (α : Type*) where
  | opens (a : α)
  | closes (a : α)
  deriving DecidableEq, Repr

variable {α : Type*}

/-- The stack machine that reads tags; it fails on a closing tag that does not match. -/
def step [DecidableEq α] : List α → Tag α → Option (List α)
  | st, .opens a => some (a :: st)
  | [], .closes _ => none
  | b :: st, .closes a => if a = b then some st else none

/-- Every tag closes what was opened last, and nothing stays open. -/
def WellBracketed [DecidableEq α] (tags : List (Tag α)) : Prop := Machine.run step [] tags = some []

instance [DecidableEq α] (tags : List (Tag α)) : Decidable (WellBracketed tags) :=
  inferInstanceAs (Decidable (_ = _))

theorem run_opens [DecidableEq α] : ∀ (l st : List α),
    Machine.run step st (l.map Tag.opens) = some (l.reverse ++ st)
  | [], st => rfl
  | a :: l, st => by
    rw [List.map_cons, Machine.run_cons, step, Option.bind_some, run_opens l (a :: st),
      List.reverse_cons, List.append_assoc, List.singleton_append]

/-- Closing tags are accepted exactly when they are the top of the stack. -/
theorem run_closes_iff [DecidableEq α] : ∀ {l st st' : List α},
    Machine.run step st (l.map Tag.closes) = some st' ↔ st = l ++ st'
  | [], st, st' => by simp
  | a :: l, [], st' => by simp [step]
  | a :: l, b :: st, st' => by
    rw [List.map_cons, Machine.run_cons, step, List.cons_append, List.cons.injEq]
    by_cases hab : a = b
    · rw [if_pos hab, Option.bind_some, run_closes_iff]
      exact ⟨fun h => ⟨hab.symm, h⟩, fun h => h.2⟩
    · rw [if_neg hab, Option.bind_none]
      exact ⟨fun h => by simp at h, fun h => (hab h.1.symm).elim⟩

/-! ## 2. Sweeps -/

/-- The tags of a sweep over `ms`, which opens `S m` and then closes `E m` at each `m`. -/
def sweep (S E : Int → List α) (ms : List Int) : List (Tag α) :=
  ms.flatMap fun m => (S m).map Tag.opens ++ (E m).map Tag.closes

/-- **One position of a sweep.** -/
theorem run_sweep_cons [DecidableEq α] {S E : Int → List α} {m : Int} {ms : List Int} {st : List α} :
    Machine.run step st (sweep S E (m :: ms)) = some [] ↔
      ∃ st', (S m).reverse ++ st = E m ++ st' ∧
        Machine.run step st' (sweep S E ms) = some [] := by
  rw [sweep, List.flatMap_cons, List.append_assoc, Machine.run_append, run_opens,
    Option.bind_some, Machine.run_append]
  constructor
  · intro h
    obtain ⟨st', h₁, h₂⟩ := Option.bind_eq_some_iff.mp h
    exact ⟨st', run_closes_iff.mp h₁, h₂⟩
  · rintro ⟨st', h₁, h₂⟩
    rw [run_closes_iff.mpr h₁]
    exact h₂

/-- The data of a sweep: what is opened and closed at a position, and the orders `OB` of
opening and `CB` of closing, which refine those of the positions. -/
structure Sweeping (items : List α) (lo hi : α → Int) (OB CB : α → α → Prop)
    (S E : Int → List α) : Prop where
  mem_S : ∀ {m x}, x ∈ S m ↔ x ∈ items ∧ lo x = m
  mem_E : ∀ {m x}, x ∈ E m ↔ x ∈ items ∧ hi x = m
  sorted_S : ∀ m, (S m).Pairwise OB
  sorted_E : ∀ m, (E m).Pairwise CB
  lo_le_hi : ∀ x ∈ items, lo x ≤ hi x
  opens_of_lt : ∀ x ∈ items, ∀ y ∈ items, lo x < lo y → OB x y
  closes_of_lt : ∀ x ∈ items, ∀ y ∈ items, hi x < hi y → CB x y
  opens_asymm : ∀ x ∈ items, ∀ y ∈ items, OB x y → ¬ OB y x
  closes_asymm : ∀ x ∈ items, ∀ y ∈ items, CB x y → ¬ CB y x
  closes_total : ∀ x ∈ items, ∀ y ∈ items, x ≠ y → CB x y ∨ CB y x

/-- `x` is opened before `y` and closed before `y`, and both are open at once. -/
def Crossing (lo hi : α → Int) (OB CB : α → α → Prop) (x y : α) : Prop :=
  OB x y ∧ lo y ≤ hi x ∧ CB x y

section Sweep

variable {items : List α} {lo hi : α → Int} {OB CB : α → α → Prop} {S E : Int → List α}

/-- What is open before the positions `ms` are swept. -/
structure Stacked (items : List α) (lo hi : α → Int) (ms : List Int) (st : List α) : Prop where
  mem : ∀ {x}, x ∈ st ↔ x ∈ items ∧ hi x ∈ ms ∧ lo x ∉ ms
  nodup : st.Nodup

/-- `ms` are the last positions of the sweep. -/
structure Final (items : List α) (lo hi : α → Int) (ms : List Int) : Prop where
  ascending : ms.Pairwise (· < ·)
  lo_mem : ∀ x ∈ items, ∀ k ∈ ms, k ≤ lo x → lo x ∈ ms
  hi_mem : ∀ x ∈ items, ∀ k ∈ ms, k ≤ hi x → hi x ∈ ms

theorem Final.tail {m : Int} {ms : List Int} (h : Final items lo hi (m :: ms)) :
    Final items lo hi ms where
  ascending := (List.pairwise_cons.mp h.ascending).2
  lo_mem := by
    intro x hx k hk hle
    have hm := (List.pairwise_cons.mp h.ascending).1 k hk
    rcases List.mem_cons.mp (h.lo_mem x hx k (List.mem_cons_of_mem _ hk) hle) with heq | hin
    · omega
    · exact hin
  hi_mem := by
    intro x hx k hk hle
    have hm := (List.pairwise_cons.mp h.ascending).1 k hk
    rcases List.mem_cons.mp (h.hi_mem x hx k (List.mem_cons_of_mem _ hk) hle) with heq | hin
    · omega
    · exact hin

theorem pairwise_either {R : α → α → Prop} : ∀ {l : List α} {x y : α}, l.Pairwise R →
    x ∈ l → y ∈ l → x ≠ y → R x y ∨ R y x
  | [], x, y, _, hx, _, _ => (List.not_mem_nil hx).elim
  | a :: l, x, y, h, hx, hy, hne => by
    obtain ⟨ha, hl⟩ := List.pairwise_cons.mp h
    rcases List.mem_cons.mp hx with hxa | hx'
    · rcases List.mem_cons.mp hy with hya | hy'
      · exact (hne (hxa.trans hya.symm)).elim
      · rw [hxa]
        exact Or.inl (ha y hy')
    · rcases List.mem_cons.mp hy with hya | hy'
      · rw [hya]
        exact Or.inr (ha x hx')
      · exact pairwise_either hl hx' hy' hne

theorem nodup_of_pairwise {R : α → α → Prop} {l : List α}
    (hasymm : ∀ x ∈ l, ∀ y ∈ l, R x y → ¬ R y x) (h : l.Pairwise R) : l.Nodup := by
  refine h.imp_of_mem fun {x y} hx hy hxy heq => ?_
  subst heq
  exact hasymm x hx x hx hxy hxy

section Position

variable {m : Int} {ms : List Int} {st : List α}

/-- What is open at a position, once its opening tags are read. -/
theorem Sweeping.mem_open (h : Sweeping items lo hi OB CB S E)
    (hms : Final items lo hi (m :: ms)) (hst : Stacked items lo hi (m :: ms) st) {x : α} :
    x ∈ (S m).reverse ++ st ↔ x ∈ items ∧ hi x ∈ m :: ms ∧ lo x ∉ ms := by
  rw [List.mem_append, List.mem_reverse, h.mem_S, hst.mem]
  have hlt : ∀ k ∈ ms, m < k := (List.pairwise_cons.mp hms.ascending).1
  constructor
  · rintro (⟨hx, hlo⟩ | ⟨hx, hhi, hlo⟩)
    · refine ⟨hx, hms.hi_mem x hx m List.mem_cons_self ?_, ?_⟩
      · rw [← hlo]
        exact h.lo_le_hi x hx
      · intro hin
        exact (hlt _ hin).ne hlo.symm
    · exact ⟨hx, hhi, fun hin => hlo (List.mem_cons_of_mem _ hin)⟩
  · rintro ⟨hx, hhi, hlo⟩
    by_cases heq : lo x = m
    · exact Or.inl ⟨hx, heq⟩
    · refine Or.inr ⟨hx, hhi, ?_⟩
      rw [List.mem_cons, not_or]
      exact ⟨heq, hlo⟩

theorem Sweeping.nodup_open (h : Sweeping items lo hi OB CB S E)
    (hst : Stacked items lo hi (m :: ms) st) : ((S m).reverse ++ st).Nodup := by
  refine List.nodup_append.mpr ⟨?_, hst.nodup, ?_⟩
  · refine List.nodup_reverse.mpr (nodup_of_pairwise ?_ (h.sorted_S m))
    intro x hx y hy
    exact h.opens_asymm x (h.mem_S.mp hx).1 y (h.mem_S.mp hy).1
  · intro x hx y hy heq
    subst heq
    refine (hst.mem.mp hy).2.2 ?_
    rw [(h.mem_S.mp (List.mem_reverse.mp hx)).2]
    exact List.mem_cons_self

/-- What stays open is what ends later. -/
theorem Sweeping.stacked_rest (h : Sweeping items lo hi OB CB S E)
    (hms : Final items lo hi (m :: ms)) (hst : Stacked items lo hi (m :: ms) st)
    {st' : List α} (heq : (S m).reverse ++ st = E m ++ st') : Stacked items lo hi ms st' := by
  have hnodup := h.nodup_open hst
  rw [heq] at hnodup
  obtain ⟨-, hnodup', hdisj⟩ := List.nodup_append.mp hnodup
  have hlt : ∀ k ∈ ms, m < k := (List.pairwise_cons.mp hms.ascending).1
  refine ⟨@fun x => ⟨fun hx => ?_, ?_⟩, hnodup'⟩
  · have hopen : x ∈ (S m).reverse ++ st := by
      rw [heq]
      exact List.mem_append_right _ hx
    obtain ⟨hitem, hhi, hlo⟩ := (h.mem_open hms hst).mp hopen
    refine ⟨hitem, ?_, hlo⟩
    rcases List.mem_cons.mp hhi with hm | hin
    · exact (hdisj x (h.mem_E.mpr ⟨hitem, hm⟩) x hx rfl).elim
    · exact hin
  · rintro ⟨hitem, hhi, hlo⟩
    have hopen := (h.mem_open hms hst).mpr ⟨hitem, List.mem_cons_of_mem _ hhi, hlo⟩
    rw [heq] at hopen
    rcases List.mem_append.mp hopen with hE | hx
    · exact ((hlt _ hhi).ne (h.mem_E.mp hE).2.symm).elim
    · exact hx

/-- **The opening tags of a position keep the stack sorted exactly when nothing that is open
crosses what they open.** -/
theorem Sweeping.sorted_open_iff (h : Sweeping items lo hi OB CB S E)
    (hms : Final items lo hi (m :: ms)) (hst : Stacked items lo hi (m :: ms) st) :
    ((S m).reverse ++ st).Pairwise CB ↔
      st.Pairwise CB ∧ ∀ x ∈ items, ∀ y ∈ items, lo y = m → ¬ Crossing lo hi OB CB x y := by
  have hle : ∀ k ∈ m :: ms, m ≤ k := by
    intro k hk
    rcases List.mem_cons.mp hk with rfl | hk
    · exact le_refl _
    · exact ((List.pairwise_cons.mp hms.ascending).1 k hk).le
  rw [List.pairwise_append, List.pairwise_reverse]
  constructor
  · rintro ⟨hS, hpw, hcross⟩
    refine ⟨hpw, ?_⟩
    rintro x hx y hy hlo ⟨hob, hmeet, hcb⟩
    have hyS : y ∈ S m := h.mem_S.mpr ⟨hy, hlo⟩
    rcases lt_trichotomy (lo x) (lo y) with hlt | heq | hgt
    · have hxst : x ∈ st := by
        refine hst.mem.mpr ⟨hx, hms.hi_mem x hx m List.mem_cons_self (by omega), fun hin => ?_⟩
        have := hle _ hin
        omega
      exact h.closes_asymm x hx y hy hcb
        (hcross y (List.mem_reverse.mpr hyS) x hxst)
    · have hxS : x ∈ S m := h.mem_S.mpr ⟨hx, heq.trans hlo⟩
      have hne : x ≠ y := by
        intro hxy
        subst hxy
        exact h.opens_asymm x hx x hx hob hob
      -- either way round, the two orders run against each other in `S m`
      have hboth := (h.sorted_S m).and hS
      have hsymm := pairwise_either hboth hxS hyS hne
      rcases hsymm with ⟨-, hcb'⟩ | ⟨hob', -⟩
      · exact h.closes_asymm x hx y hy hcb hcb'
      · exact h.opens_asymm x hx y hy hob hob'
    · exact h.opens_asymm x hx y hy hob (h.opens_of_lt y hy x hx hgt)
  · rintro ⟨hpw, hno⟩
    refine ⟨?_, hpw, ?_⟩
    · refine (h.sorted_S m).imp_of_mem fun {x y} hxS hyS hob => ?_
      obtain ⟨hx, hlox⟩ := h.mem_S.mp hxS
      obtain ⟨hy, hloy⟩ := h.mem_S.mp hyS
      have hne : x ≠ y := by
        intro hxy
        subst hxy
        exact h.opens_asymm x hx x hx hob hob
      refine (h.closes_total x hx y hy hne).resolve_left fun hcb => ?_
      have := h.lo_le_hi x hx
      exact hno x hx y hy hloy ⟨hob, by omega, hcb⟩
    · intro y hyS x hxst
      obtain ⟨hy, hloy⟩ := h.mem_S.mp (List.mem_reverse.mp hyS)
      obtain ⟨hx, hhi, hlo⟩ := hst.mem.mp hxst
      have hlt : lo x < m := by
        by_contra hge
        exact hlo (hms.lo_mem x hx m List.mem_cons_self (not_lt.mp hge))
      have hne : x ≠ y := by
        intro hxy
        subst hxy
        omega
      refine (h.closes_total x hx y hy hne).resolve_left fun hcb => ?_
      have := hle _ hhi
      exact hno x hx y hy hloy
        ⟨h.opens_of_lt x hx y hy (by omega), by omega, hcb⟩

/-- A sorted stack has what ends here on top, in the order of the closing tags. -/
theorem Sweeping.open_eq (h : Sweeping items lo hi OB CB S E)
    (hms : Final items lo hi (m :: ms)) (hst : Stacked items lo hi (m :: ms) st)
    (hpw : ((S m).reverse ++ st).Pairwise CB) :
    ∃ st', (S m).reverse ++ st = E m ++ st' := by
  have hlt : ∀ k ∈ ms, m < k := (List.pairwise_cons.mp hms.ascending).1
  have hitem : ∀ x ∈ (S m).reverse ++ st, x ∈ items :=
    fun x hx => ((h.mem_open hms hst).mp hx).1
  have hEopen : ∀ x ∈ E m, x ∈ (S m).reverse ++ st := by
    intro x hx
    obtain ⟨hi₁, hi₂⟩ := h.mem_E.mp hx
    refine (h.mem_open hms hst).mpr ⟨hi₁, ?_, ?_⟩
    · rw [hi₂]
      exact List.mem_cons_self
    · intro hin
      have h₁ := hlt _ hin
      have h₂ := h.lo_le_hi x hi₁
      omega
  refine ⟨((S m).reverse ++ st).filter fun x => decide (hi x ≠ m), ?_⟩
  have hnodupE : (E m).Nodup := nodup_of_pairwise
    (fun x hx y hy => h.closes_asymm x (h.mem_E.mp hx).1 y (h.mem_E.mp hy).1) (h.sorted_E m)
  have hmem : ∀ x, x ∈ E m ++ ((S m).reverse ++ st).filter (fun x => decide (hi x ≠ m)) ↔
      x ∈ (S m).reverse ++ st := by
    intro x
    rw [List.mem_append, List.mem_filter, decide_eq_true_iff]
    constructor
    · rintro (hx | ⟨hx, -⟩)
      · exact hEopen x hx
      · exact hx
    · intro hx
      by_cases heq : hi x = m
      · exact Or.inl (h.mem_E.mpr ⟨hitem x hx, heq⟩)
      · exact Or.inr ⟨hx, heq⟩
  refine List.Perm.eq_of_pairwise ?_ hpw ?_ ?_
  · intro x y hx hy hxy hyx
    exact (h.closes_asymm x (hitem x hx) y (hitem y ((hmem y).mp hy)) hxy hyx).elim
  · refine List.pairwise_append.mpr ⟨h.sorted_E m, hpw.filter _, ?_⟩
    intro x hx y hy
    obtain ⟨hxi, hxhi⟩ := h.mem_E.mp hx
    obtain ⟨hyo, hyne⟩ := List.mem_filter.mp hy
    refine h.closes_of_lt x hxi y (hitem y hyo) ?_
    rcases List.mem_cons.mp ((h.mem_open hms hst).mp hyo).2.1 with heq | hin
    · simp [heq] at hyne
    · rw [hxhi]
      exact hlt _ hin
  · refine (List.perm_ext_iff_of_nodup (h.nodup_open hst) ?_).mpr fun x => (hmem x).symm
    refine List.nodup_append.mpr ⟨hnodupE, (h.nodup_open hst).filter _, ?_⟩
    intro x hx y hy heq
    subst heq
    simp [(h.mem_E.mp hx).2] at hy

/-- What is closed here, on top of a sorted stack of what is closed later. -/
theorem Sweeping.sorted_closed (h : Sweeping items lo hi OB CB S E)
    (hms : Final items lo hi (m :: ms)) {st' : List α} (hst' : Stacked items lo hi ms st')
    (hpw : st'.Pairwise CB) : (E m ++ st').Pairwise CB := by
  refine List.pairwise_append.mpr ⟨h.sorted_E m, hpw, ?_⟩
  intro x hx y hy
  obtain ⟨hxi, hxhi⟩ := h.mem_E.mp hx
  obtain ⟨hyi, hyhi, -⟩ := hst'.mem.mp hy
  refine h.closes_of_lt x hxi y hyi ?_
  rw [hxhi]
  exact (List.pairwise_cons.mp hms.ascending).1 _ hyhi

end Position

/-- A sweep from any position on is accepted exactly when the stack is sorted and nothing that
is still to be opened is crossed. -/
theorem Sweeping.run_iff [DecidableEq α] (h : Sweeping items lo hi OB CB S E) :
    ∀ (ms : List Int) (st : List α),
    Final items lo hi ms → Stacked items lo hi ms st →
      (Machine.run step st (sweep S E ms) = some [] ↔
        st.Pairwise CB ∧
          ∀ x ∈ items, ∀ y ∈ items, lo y ∈ ms → ¬ Crossing lo hi OB CB x y)
  | [], st, _, hst => by
    have hnil : st = [] := by
      refine List.eq_nil_iff_forall_not_mem.mpr fun x hx => ?_
      exact List.not_mem_nil (hst.mem.mp hx).2.1
    subst hnil
    simp [sweep]
  | m :: ms, st, hms, hst => by
    rw [run_sweep_cons]
    constructor
    · rintro ⟨st', heq, hrun⟩
      have hst' := h.stacked_rest hms hst heq
      obtain ⟨hpw', hno'⟩ := (h.run_iff ms st' hms.tail hst').mp hrun
      have hopen := h.sorted_closed hms hst' hpw'
      rw [← heq] at hopen
      obtain ⟨hpw, hno⟩ := (h.sorted_open_iff hms hst).mp hopen
      refine ⟨hpw, fun x hx y hy hlo => ?_⟩
      rcases List.mem_cons.mp hlo with heq | hin
      · exact hno x hx y hy heq
      · exact hno' x hx y hy hin
    · rintro ⟨hpw, hno⟩
      have hopen := (h.sorted_open_iff hms hst).mpr
        ⟨hpw, fun x hx y hy hlo => hno x hx y hy (by simp [hlo])⟩
      obtain ⟨st', heq⟩ := h.open_eq hms hst hopen
      have hst' := h.stacked_rest hms hst heq
      refine ⟨st', heq, (h.run_iff ms st' hms.tail hst').mpr ⟨?_, ?_⟩⟩
      · rw [heq] at hopen
        exact (List.pairwise_append.mp hopen).2.1
      · intro x hx y hy hlo
        exact hno x hx y hy (List.mem_cons_of_mem _ hlo)

/-- **A sweep is well bracketed exactly when no two intervals cross.** -/
theorem wellBracketed_sweep_iff [DecidableEq α] (h : Sweeping items lo hi OB CB S E)
    {ms : List Int} (hasc : ms.Pairwise (· < ·)) (hlo : ∀ x ∈ items, lo x ∈ ms) (hhi : ∀ x ∈ items, hi x ∈ ms) :
    WellBracketed (sweep S E ms) ↔
      ∀ x ∈ items, ∀ y ∈ items, ¬ Crossing lo hi OB CB x y := by
  have hfinal : Final items lo hi ms :=
    ⟨hasc, fun x hx _ _ _ => hlo x hx, fun x hx _ _ _ => hhi x hx⟩
  have hempty : Stacked items lo hi ms [] := by
    refine ⟨@fun x => ⟨fun hx => (List.not_mem_nil hx).elim, ?_⟩, List.nodup_nil⟩
    rintro ⟨hx, -, hnot⟩
    exact (hnot (hlo x hx)).elim
  rw [WellBracketed, h.run_iff ms [] hfinal hempty]
  constructor
  · rintro ⟨-, hno⟩ x hx y hy
    exact hno x hx y hy (hlo y hy)
  · intro hno
    exact ⟨List.Pairwise.nil, fun x hx y hy _ => hno x hx y hy⟩

end Sweep

/-! ## 3. What is opened and closed, and in which order -/

/-- What an opening tag opens. -/
def Tag.opened? : Tag α → Option α
  | .opens a => some a
  | .closes _ => none

/-- What a closing tag closes. -/
def Tag.closed? : Tag α → Option α
  | .opens _ => none
  | .closes a => some a

/-- The opening tags of a sequence. -/
def opened (tags : List (Tag α)) : List α := tags.filterMap Tag.opened?

/-- The closing tags of a sequence. -/
def closed (tags : List (Tag α)) : List α := tags.filterMap Tag.closed?

theorem filterMap_block {β : Type*} (f : Tag α → Option β) (l k : List α) :
    (l.map Tag.opens ++ k.map Tag.closes).filterMap f
      = l.filterMap (fun a => f (.opens a)) ++ k.filterMap (fun a => f (.closes a)) := by
  rw [List.filterMap_append, List.filterMap_map, List.filterMap_map]
  rfl

theorem opened_sweep (S E : Int → List α) (ms : List Int) :
    opened (sweep S E ms) = ms.flatMap S := by
  rw [opened, sweep, List.filterMap_flatMap]
  congr 1
  funext m
  rw [filterMap_block]
  simp [Tag.opened?]

theorem closed_sweep (S E : Int → List α) (ms : List Int) :
    closed (sweep S E ms) = ms.flatMap E := by
  rw [closed, sweep, List.filterMap_flatMap]
  congr 1
  funext m
  rw [filterMap_block]
  simp [Tag.closed?]

/-- In a list that is sorted by an asymmetric relation, what is related comes in this order. -/
theorem sublist_of_pairwise {R : α → α → Prop} : ∀ {l : List α} {x y : α}, l.Pairwise R →
    x ∈ l → y ∈ l → x ≠ y → ¬ R y x → [x, y].Sublist l
  | [], x, y, _, hx, _, _, _ => (List.not_mem_nil hx).elim
  | a :: l, x, y, h, hx, hy, hne, hR => by
    obtain ⟨ha, hl⟩ := List.pairwise_cons.mp h
    rcases List.mem_cons.mp hy with hya | hy'
    · rcases List.mem_cons.mp hx with hxa | hx'
      · exact (hne (hxa.trans hya.symm)).elim
      · rw [hya] at hR
        exact (hR (ha x hx')).elim
    · rcases List.mem_cons.mp hx with hxa | hx'
      · rw [hxa]
        exact (List.singleton_sublist.mpr hy').cons_cons a
      · exact (sublist_of_pairwise hl hx' hy' hne hR).cons a

/-- What is closed and was not open at first is opened before. -/
theorem opens_before_closes [DecidableEq α] {x : α} : ∀ {tags : List (Tag α)} {st st' : List α},
    Machine.run step st tags = some st' → x ∉ st → Tag.closes x ∈ tags →
      [Tag.opens x, Tag.closes x].Sublist tags
  | [], _, _, _, _, hin => (List.not_mem_nil hin).elim
  | .opens a :: tags, st, st', hrun, hst, hin => by
    have hin' : Tag.closes x ∈ tags := by simpa using hin
    by_cases hax : a = x
    · rw [hax]
      exact (List.singleton_sublist.mpr hin').cons_cons _
    · rw [Machine.run_cons, step, Option.bind_some] at hrun
      refine (opens_before_closes hrun ?_ hin').cons _
      rw [List.mem_cons, not_or]
      exact ⟨fun h => hax h.symm, hst⟩
  | .closes a :: tags, [], st', hrun, hst, hin => by simp [step] at hrun
  | .closes a :: tags, b :: st, st', hrun, hst, hin => by
    rw [Machine.run_cons, step] at hrun
    by_cases hab : a = b
    · rw [if_pos hab, Option.bind_some] at hrun
      rw [List.mem_cons, not_or] at hst
      have hin' : Tag.closes x ∈ tags := by
        rcases List.mem_cons.mp hin with heq | hin
        · exact (hst.1 ((Tag.closes.inj heq).trans hab)).elim
        · exact hin
      exact (opens_before_closes hrun hst.2 hin').cons _
    · rw [if_neg hab, Option.bind_none] at hrun
      cases hrun

section Order

variable {items : List α} {lo hi : α → Int} {OB CB : α → α → Prop} {S E : Int → List α}
  {ms : List Int}

theorem Sweeping.pairwise_opened (h : Sweeping items lo hi OB CB S E)
    (hasc : ms.Pairwise (· < ·)) : (ms.flatMap S).Pairwise OB := by
  refine List.pairwise_flatMap.mpr ⟨fun m _ => h.sorted_S m, ?_⟩
  refine hasc.imp fun {m k} hmk x hx y hy => ?_
  obtain ⟨hx', hxm⟩ := h.mem_S.mp hx
  obtain ⟨hy', hyk⟩ := h.mem_S.mp hy
  exact h.opens_of_lt x hx' y hy' (by omega)

theorem Sweeping.pairwise_closed (h : Sweeping items lo hi OB CB S E)
    (hasc : ms.Pairwise (· < ·)) : (ms.flatMap E).Pairwise CB := by
  refine List.pairwise_flatMap.mpr ⟨fun m _ => h.sorted_E m, ?_⟩
  refine hasc.imp fun {m k} hmk x hx y hy => ?_
  obtain ⟨hx', hxm⟩ := h.mem_E.mp hx
  obtain ⟨hy', hyk⟩ := h.mem_E.mp hy
  exact h.closes_of_lt x hx' y hy' (by omega)

/-- Every interval is opened exactly once. -/
theorem Sweeping.opened_perm (h : Sweeping items lo hi OB CB S E) (hasc : ms.Pairwise (· < ·))
    (hlo : ∀ x ∈ items, lo x ∈ ms) (hnodup : items.Nodup) : (ms.flatMap S).Perm items := by
  refine (List.perm_ext_iff_of_nodup (nodup_of_pairwise ?_ (h.pairwise_opened hasc)) hnodup).mpr ?_
  · intro x hx y hy
    obtain ⟨m, -, hx⟩ := List.mem_flatMap.mp hx
    obtain ⟨k, -, hy⟩ := List.mem_flatMap.mp hy
    exact h.opens_asymm x (h.mem_S.mp hx).1 y (h.mem_S.mp hy).1
  · intro x
    simp only [List.mem_flatMap, h.mem_S]
    exact ⟨fun ⟨_, _, hx, _⟩ => hx, fun hx => ⟨lo x, hlo x hx, hx, rfl⟩⟩

/-- Every interval is closed exactly once. -/
theorem Sweeping.closed_perm (h : Sweeping items lo hi OB CB S E) (hasc : ms.Pairwise (· < ·))
    (hhi : ∀ x ∈ items, hi x ∈ ms) (hnodup : items.Nodup) : (ms.flatMap E).Perm items := by
  refine (List.perm_ext_iff_of_nodup (nodup_of_pairwise ?_ (h.pairwise_closed hasc)) hnodup).mpr ?_
  · intro x hx y hy
    obtain ⟨m, -, hx⟩ := List.mem_flatMap.mp hx
    obtain ⟨k, -, hy⟩ := List.mem_flatMap.mp hy
    exact h.closes_asymm x (h.mem_E.mp hx).1 y (h.mem_E.mp hy).1
  · intro x
    simp only [List.mem_flatMap, h.mem_E]
    exact ⟨fun ⟨_, _, hx, _⟩ => hx, fun hx => ⟨hi x, hhi x hx, hx, rfl⟩⟩

end Order

end Brackets
