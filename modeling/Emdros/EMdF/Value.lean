/-
# Values of features (`emdf_value.h`, `emdf_value.cpp`)

`EMdFValue` is the value of a feature of an object, and `compare` compares two of them.  The
`ASSERT_THROW`s of the functions are `none`, and so is a read of a member of the union that is not
the one that was written.

`compare` is asked to do more than it can: `relates_of_compare` says that what it answers is
right, and `compare_isSome_iff` for which kinds and operators there is an answer.
-/
import Emdros.EMdF.StringFunc
import Emdros.EMdF.Tables
import Emdros.Monads.Queries

namespace Emdros

/-! ## 1. Numbers as text -/

/-- `emdf_ivalue`, `id_d_t` and `monad_m` have 32 bits. -/
def IsIvalue (i : Int) : Prop := -2147483648 ≤ i ∧ i < 2147483648

theorem IsIvalue.digits {i : Int} (h : IsIvalue i) : i.natAbs < 10 ^ 10 := by
  obtain ⟨hlo, hhi⟩ := h
  omega

/-- What `longlong2string` writes for numbers of at most ten digits. -/
theorem longlong2string_spec {i : Int} (hi : i.natAbs < 10 ^ 10) :
    ∃ ds, longlong2string i = (if i < 0 then 45 :: ds else ds) ∧ ds ≠ [] ∧
      (∀ c ∈ ds, IsDecimal c) ∧ sz2longlongDigits 0 ds = i.natAbs := by
  obtain ⟨ds, hloop, hne, -, hds, hread⟩ :=
    longlong2szLoop_digits (n := 9) (v := i) [] (by decide : 9 < 29) hi
  have hvalue := hread 0 []
  rw [List.append_nil, Int.zero_mul, Int.zero_add] at hvalue
  rw [List.append_nil] at hloop
  exact ⟨ds, by rw [longlong2string, hloop], hne, hds, hvalue⟩

theorem IsDecimal.bounds {c : UInt8} (h : IsDecimal c) : 48 ≤ c.toNat ∧ c.toNat ≤ 57 := by
  obtain ⟨d, hd, rfl⟩ := h
  rw [toNat_digit hd]
  omega

/-- There are only digits and minus signs in a number. -/
theorem ne_of_mem_longlong2string {i : Int} (hi : i.natAbs < 10 ^ 10) {c d : UInt8}
    (hc : c ∈ longlong2string i) (hd : d.toNat < 45 ∨ 57 < d.toNat) : c ≠ d := by
  obtain ⟨ds, htext, -, hds, -⟩ := longlong2string_spec hi
  have hbounds : 45 ≤ c.toNat ∧ c.toNat ≤ 57 := by
    rw [htext] at hc
    split at hc
    · rcases List.mem_cons.mp hc with rfl | hc
      · decide
      · have := (hds c hc).bounds
        omega
    · have := (hds c hc).bounds
      omega
  rintro rfl
  omega

/-- **Numbers are read back.** -/
theorem sz2longlong_longlong2string {i : Int} (hi : i.natAbs < 10 ^ 10) :
    sz2longlong (longlong2string i) = i := by
  obtain ⟨ds, htext, hne, hds, hvalue⟩ := longlong2string_spec hi
  rw [htext]
  split
  · rw [sz2longlong, if_pos rfl, hvalue]
    omega
  · cases ds with
    | nil => exact absurd rfl hne
    | cons c ds =>
      have hc := (hds c List.mem_cons_self).bounds
      have h₁ : c ≠ 45 := by
        rintro rfl
        exact absurd hc (by decide)
      have h₂ : c ≠ 43 := by
        rintro rfl
        exact absurd hc (by decide)
      rw [sz2longlong, if_neg h₁, if_neg h₂, hvalue]
      omega

/-- **Numbers are told apart by their text.** -/
theorem longlong2string_inj {i j : Int} (hi : i.natAbs < 10 ^ 10) (hj : j.natAbs < 10 ^ 10)
    (h : longlong2string i = longlong2string j) : i = j := by
  rw [← sz2longlong_longlong2string hi, h, sz2longlong_longlong2string hj]

/-! ## 2. Lists as text -/

/-- `getDelimitedString(" ")`, of elements that are printed already. -/
def delimitedString (texts : List (List UInt8)) : List UInt8 :=
  if texts.isEmpty then [] else texts.flatMap (fun text => 32 :: text) ++ [32]

section Delimited

variable {α : Type*} {sep : α}

/-- Words without the separator that are followed by it are the same. -/
theorem eq_of_append_sep : ∀ {w w' s s' : List α}, sep ∉ w → sep ∉ w' →
    w ++ sep :: s = w' ++ sep :: s' → w = w'
  | [], [], _, _, _, _, _ => rfl
  | [], c :: w', s, s', _, hw', h => by
    rw [List.nil_append, List.cons_append] at h
    exact absurd ((List.cons_eq_cons.mp h).1 ▸ List.mem_cons_self) hw'
  | c :: w, [], s, s', hw, _, h => by
    rw [List.nil_append, List.cons_append] at h
    exact absurd ((List.cons_eq_cons.mp h).1 ▸ List.mem_cons_self) hw
  | c :: w, c' :: w', s, s', hw, hw', h => by
    rw [List.cons_append, List.cons_append] at h
    obtain ⟨rfl, htail⟩ := List.cons_eq_cons.mp h
    rw [eq_of_append_sep (fun hm => hw (List.mem_cons_of_mem _ hm))
      (fun hm => hw' (List.mem_cons_of_mem _ hm)) htail]

/-- Something that starts with the separator does not start in a word. -/
theorem infix_of_append {w s t : List α} (hw : sep ∉ w) (h : sep :: t <:+: w ++ s) :
    sep :: t <:+: s := by
  obtain ⟨p, q, h⟩ := h
  rw [List.append_assoc] at h
  rcases List.append_eq_append_iff.mp h with ⟨a, rfl, ha⟩ | ⟨a, rfl, ha⟩
  · cases a with
    | nil => exact ⟨[], q, by rw [List.nil_append, ha, List.nil_append]⟩
    | cons c a =>
      rw [List.cons_append, List.cons_append] at ha
      obtain ⟨rfl, -⟩ := List.cons_eq_cons.mp ha
      exact absurd (List.mem_append_right _ List.mem_cons_self) hw
  · exact ⟨a, q, by rw [List.append_assoc, ha]⟩

/-- **A word between separators** is found in a delimited list of words if it is one of them. -/
theorem infix_delimited_iff {w : List α} (hw : sep ∉ w) : ∀ {ws : List (List α)},
    (∀ v ∈ ws, sep ∉ v) →
      (sep :: (w ++ [sep]) <:+: ws.flatMap (fun v => sep :: v) ++ [sep] ↔ w ∈ ws)
  | [], _ => by
    constructor
    · intro h
      have hlen := h.length_le
      simp at hlen
    · intro h
      cases h
  | v :: ws, hws => by
    have ih := infix_delimited_iff hw fun v hv => hws v (List.mem_cons_of_mem _ hv)
    have hv : sep ∉ v := hws v List.mem_cons_self
    have hrest : ∃ s, ws.flatMap (fun v => sep :: v) ++ [sep] = sep :: s := by
      cases ws with
      | nil => exact ⟨[], rfl⟩
      | cons u ws => exact ⟨_, rfl⟩
    obtain ⟨s, hs⟩ := hrest
    rw [List.flatMap_cons, List.append_assoc, List.cons_append, hs]
    rw [hs] at ih
    constructor
    · rintro ⟨p, q, h⟩
      cases p with
      | nil =>
        rw [List.nil_append, List.cons_append, List.append_assoc] at h
        have heq := eq_of_append_sep hw hv (List.cons_eq_cons.mp h).2
        rw [heq]
        exact List.mem_cons_self
      | cons c p =>
        rw [List.cons_append, List.cons_append] at h
        have hin : sep :: (w ++ [sep]) <:+: v ++ sep :: s := ⟨p, q, (List.cons_eq_cons.mp h).2⟩
        exact List.mem_cons_of_mem _ (ih.mp (infix_of_append hv hin))
    · intro h
      rcases List.mem_cons.mp h with rfl | h
      · exact ⟨[], s, by simp⟩
      · obtain ⟨p, q, h⟩ := ih.mpr h
        exact ⟨sep :: v ++ p, q, by rw [← h]; simp⟩

end Delimited

/-! ## 3. Values -/

/-- `eComparisonOp`. -/
inductive ComparisonOp where
  | equal
  | lessThan
  | greaterThan
  | notEqual
  | lessThanOrEqual
  | greaterThanOrEqual
  | tilde
  | notTilde
  | isIn
  | has
  deriving DecidableEq, Repr

/-- `class EMdFValue`: its kind, and the member of the union that goes with it. -/
inductive EMdFValue where
  | int (i : Int)
  | enumeration (i : Int)
  | idD (i : Int)
  | string (str : List UInt8)
  | listOfInteger (l : List Int)
  | listOfIdD (l : List Int)
  | setOfMonads (som : SetOfMonads)
  deriving DecidableEq, Repr

namespace EMdFValue

/-- The number of an atomic value: the `switch`es for `left_value`, `right_value` and
`other_value`, `getInt` and `getEnum`. -/
def number : EMdFValue → Option Int
  | int i => some i
  | enumeration i => some i
  | idD i => some i
  | _ => none

/-- `getIntegerList`. -/
def integerList : EMdFValue → Option (List Int)
  | listOfInteger l => some l
  | listOfIdD l => some l
  | _ => none

/-- `getString`. -/
def getString : EMdFValue → Option (List UInt8)
  | string str => some str
  | _ => none

/-- `MonadSetElement::putme`. -/
def monadSetElementText (e : MonadSetElement) : List UInt8 :=
  if e.firstM = e.lastM then longlong2string e.firstM
  else longlong2string e.firstM ++ Lexer.bytes "-" ++ longlong2string e.lastM

/-- `SetOfMonads::toString`.  The braces are written as numbers. -/
def setOfMonadsText (som : SetOfMonads) : List UInt8 :=
  [32, 123, 32] ++ (Lexer.bytes ", ").intercalate (som.monadMs.map monadSetElementText)
    ++ [32, 125, 32]

/-- `toString`. -/
def toText : EMdFValue → List UInt8
  | int i => longlong2string i
  | enumeration i => longlong2string i
  | idD i => longlong2string i
  | string str => str
  | listOfInteger l => delimitedString (l.map longlong2string)
  | listOfIdD l => delimitedString (l.map longlong2string)
  | setOfMonads som => setOfMonadsText som

/-! ## 4. Comparison -/

/-- The last `switch` of `compareInt` and that of `compareString`. -/
def compareOrdered {α : Type} [DecidableEq α] [LT α] [LE α] [DecidableLT α] [DecidableLE α]
    (op : ComparisonOp) (left right : α) : Option Bool :=
  match op with
  | .equal => some (decide (left = right))
  | .lessThan => some (decide (left < right))
  | .greaterThan => some (decide (left > right))
  | .notEqual => some (decide (left ≠ right))
  | .lessThanOrEqual => some (decide (left ≤ right))
  | .greaterThanOrEqual => some (decide (left ≥ right))
  | _ => none

/-- `compareListOfIntegerWithOther`.  Where this is a list of id_ds the other's kind is not
looked at. -/
def compareListOfIntegerWithOther (this other : EMdFValue) (op : ComparisonOp) : Option Bool :=
  match op with
  | .equal =>
    match this with
    | listOfInteger l =>
      match other with
      | listOfInteger l' => some (l == l')
      | _ => none
    | listOfIdD l => other.integerList.map fun l' => l == l'
    | _ => none
  | .has => this.integerList.bind fun l => other.number.map l.contains
  | .isIn => this.integerList.bind fun l => other.number.map l.contains
  | _ => none

/-- `compareSetOfMonads`. -/
def compareSetOfMonads (this other : EMdFValue) (op : ComparisonOp) : Option Bool :=
  match this with
  | setOfMonads som =>
    match other with
    | setOfMonads som' => if op = .equal then some (som.equal som') else none
    | int i => if op = .has ∨ op = .isIn then some (som.isMemberOf i) else none
    | _ => none
  | _ => none

/-- `compareInt`. -/
def compareInt (this other : EMdFValue) (op : ComparisonOp) : Option Bool :=
  this.number.bind fun left =>
    match other with
    | listOfInteger _ =>
      if op = .isIn then other.compareListOfIntegerWithOther this op else none
    | listOfIdD _ => if op = .isIn then other.compareListOfIntegerWithOther this op else none
    | setOfMonads _ => if op = .isIn then other.compareSetOfMonads this op else none
    | _ => other.number.bind fun right => compareOrdered op left right

/-- `compareString`. -/
def compareString (this other : EMdFValue) (op : ComparisonOp) : Option Bool :=
  this.getString.bind fun left => other.getString.bind fun right => compareOrdered op left right

/-- `compare`. -/
def compare (this other : EMdFValue) (op : ComparisonOp) : Option Bool :=
  match this with
  | int _ => this.compareInt other op
  | enumeration _ => this.compareInt other op
  | idD _ => this.compareInt other op
  | string _ => this.compareString other op
  | listOfInteger _ => this.compareListOfIntegerWithOther other op
  | listOfIdD _ => this.compareListOfIntegerWithOther other op
  | setOfMonads _ => this.compareSetOfMonads other op

/-! ## 5. What the operators mean -/

/-- The order that an operator names. -/
def Ordered {α : Type} [LT α] [LE α] (op : ComparisonOp) (left right : α) : Prop :=
  match op with
  | .equal => left = right
  | .lessThan => left < right
  | .greaterThan => left > right
  | .notEqual => left ≠ right
  | .lessThanOrEqual => left ≤ right
  | .greaterThanOrEqual => left ≥ right
  | _ => False

/-- The elements of a list or a set. -/
def Holds : EMdFValue → Int → Prop
  | listOfInteger l, i => i ∈ l
  | listOfIdD l, i => i ∈ l
  | setOfMonads som, i => i ∈ som.mem
  | _, _ => False

/-- The relation between two values that an operator names: the order of numbers and the byte
order of strings, equality of lists and of sets, and membership. -/
inductive Relates : ComparisonOp → EMdFValue → EMdFValue → Prop where
  | numbers {op : ComparisonOp} {v w : EMdFValue} {left right : Int} :
    v.number = some left → w.number = some right → Ordered op left right → Relates op v w
  | strings {op : ComparisonOp} {left right : List UInt8} :
    Ordered op left right → Relates op (string left) (string right)
  | lists {v w : EMdFValue} {l : List Int} :
    v.integerList = some l → w.integerList = some l → Relates .equal v w
  | sets {som som' : SetOfMonads} :
    som.mem = som'.mem → Relates .equal (setOfMonads som) (setOfMonads som')
  | isIn {v w : EMdFValue} {i : Int} : v.number = some i → w.Holds i → Relates .isIn v w
  | has {v w : EMdFValue} {i : Int} : w.number = some i → v.Holds i → Relates .has v w

/-- Sets of monads are kept in order. -/
def Sound : EMdFValue → Prop
  | setOfMonads som => som.RepInv
  | _ => True

theorem compareOrdered_spec {α : Type} [DecidableEq α] [LT α] [LE α] [DecidableLT α]
    [DecidableLE α] {op : ComparisonOp} {left right : α} {b : Bool}
    (h : compareOrdered op left right = some b) : b = true ↔ Ordered op left right := by
  cases op <;> simp only [compareOrdered, Option.some.injEq, reduceCtorEq] at h <;>
    simp [← h, Ordered]

/-- A list is no number. -/
theorem number_of_integerList {v : EMdFValue} {l : List Int} (h : v.integerList = some l) :
    v.number = none := by
  cases v <;> simp [integerList, number] at h ⊢

theorem number_of_holds {v : EMdFValue} {i : Int} (h : v.Holds i) : v.number = none := by
  cases v <;> simp [Holds, number] at h ⊢

/-- An atomic value is related to another as their numbers are. -/
theorem relates_numbers {op : ComparisonOp} {v w : EMdFValue} {left right : Int}
    (hv : v.number = some left) (hw : w.number = some right) :
    Relates op v w ↔ Ordered op left right := by
  constructor
  · rintro (⟨h₁, h₂, h⟩ | _ | ⟨h, -⟩ | _ | ⟨-, h⟩ | ⟨-, h⟩)
    · rw [hv] at h₁
      rw [hw] at h₂
      cases h₁
      cases h₂
      exact h
    · cases hv
    · rw [number_of_integerList h] at hv
      cases hv
    · cases hv
    · rw [number_of_holds h] at hw
      cases hw
    · rw [number_of_holds h] at hv
      cases hv
  · exact Relates.numbers hv hw

theorem relates_isIn {v w : EMdFValue} {i : Int} (hv : v.number = some i) (hw : w.number = none) :
    Relates .isIn v w ↔ w.Holds i := by
  constructor
  · rintro (⟨-, -, h⟩ | h | _ | _ | ⟨h₁, h⟩ | _)
    · exact h.elim
    · cases hv
    · rw [hv] at h₁
      cases h₁
      exact h
  · exact Relates.isIn hv

theorem relates_has {v w : EMdFValue} {i : Int} (hw : w.number = some i) (hv : v.number = none) :
    Relates .has v w ↔ v.Holds i := by
  constructor
  · rintro (⟨-, -, h⟩ | h | _ | _ | _ | ⟨h₁, h⟩)
    · exact h.elim
    · cases hw
    · rw [hw] at h₁
      cases h₁
      exact h
  · exact Relates.has hw

theorem relates_lists {v w : EMdFValue} {l l' : List Int} (hv : v.integerList = some l)
    (hw : w.integerList = some l') : Relates .equal v w ↔ l = l' := by
  constructor
  · rintro (⟨h₁, -, -⟩ | _ | ⟨h₁, h₂⟩ | _ | _ | _)
    · rw [number_of_integerList hv] at h₁
      cases h₁
    · cases hv
    · rw [hv] at h₁
      rw [hw] at h₂
      cases h₁
      cases h₂
      rfl
    · cases hv
  · rintro rfl
    exact Relates.lists hv hw

theorem relates_strings {op : ComparisonOp} {left right : List UInt8} :
    Relates op (string left) (string right) ↔ Ordered op left right := by
  constructor
  · rintro (⟨h, -, -⟩ | h | ⟨h, -⟩ | _ | ⟨h, -⟩ | ⟨h, -⟩)
    · cases h
    · exact h
    · cases h
    · cases h
    · cases h
  · exact Relates.strings

theorem relates_sets {som som' : SetOfMonads} :
    Relates .equal (setOfMonads som) (setOfMonads som') ↔ som.mem = som'.mem := by
  constructor
  · rintro (⟨h, -, -⟩ | _ | ⟨h, -⟩ | h | _ | _)
    · cases h
    · cases h
    · exact h
  · exact Relates.sets

theorem contains_iff_holds {v : EMdFValue} {l : List Int} {i : Int} (h : v.integerList = some l) :
    l.contains i = true ↔ v.Holds i := by
  rw [List.contains_iff_mem]
  cases v with
  | listOfInteger _ =>
    cases h
    exact Iff.rfl
  | listOfIdD _ =>
    cases h
    exact Iff.rfl
  | _ => cases h

theorem compareListOfIntegerWithOther_spec {v w : EMdFValue} {l : List Int} {op : ComparisonOp}
    {b : Bool} (hv : v.integerList = some l) (hin : op = .isIn → w.number = none)
    (h : v.compareListOfIntegerWithOther w op = some b) : b = true ↔ Relates op v w := by
  cases op with
  | equal =>
    have hw : ∃ l', w.integerList = some l' ∧ b = (l == l') := by
      cases v with
      | listOfInteger _ =>
        cases hv
        cases w with
        | listOfInteger l' => exact ⟨l', rfl, (Option.some.inj h).symm⟩
        | _ => cases h
      | listOfIdD _ =>
        cases hv
        obtain ⟨l', hl', rfl⟩ := Option.map_eq_some_iff.mp h
        exact ⟨l', hl', rfl⟩
      | _ => cases hv
    obtain ⟨l', hl', rfl⟩ := hw
    rw [beq_iff_eq, relates_lists hv hl']
  | has =>
    rw [compareListOfIntegerWithOther, hv, Option.bind_some] at h
    obtain ⟨i, hi, rfl⟩ := Option.map_eq_some_iff.mp h
    rw [relates_has hi (number_of_integerList hv), contains_iff_holds hv]
  | isIn =>
    rw [compareListOfIntegerWithOther, hv, Option.bind_some, hin rfl] at h
    cases h
  | _ => cases h

theorem compareSetOfMonads_spec {som : SetOfMonads} {w : EMdFValue} {op : ComparisonOp} {b : Bool}
    (hsom : som.RepInv) (hw : w.Sound) (hin : op = .isIn → w.number = none)
    (h : (setOfMonads som).compareSetOfMonads w op = some b) :
    b = true ↔ Relates op (setOfMonads som) w := by
  cases w with
  | setOfMonads som' =>
    rw [compareSetOfMonads] at h
    by_cases hop : op = .equal
    · rw [if_pos hop] at h
      cases h
      rw [hop, relates_sets, SetOfMonads.equal_iff hsom hw]
    · rw [if_neg hop] at h
      cases h
  | int i =>
    rw [compareSetOfMonads] at h
    split at h
    · rename_i hop
      rcases hop with rfl | rfl
      · cases h
        rw [relates_has rfl rfl, SetOfMonads.isMemberOf_iff hsom]
        rfl
      · cases hin rfl
    · cases h
  | _ => cases h

theorem compareInt_spec {v w : EMdFValue} {left : Int} {op : ComparisonOp} {b : Bool}
    (hv : v.number = some left) (hw : w.Sound) (h : v.compareInt w op = some b) :
    b = true ↔ Relates op v w := by
  rw [compareInt, hv, Option.bind_some] at h
  have hlist : ∀ {l : List Int}, w.integerList = some l →
      (if op = .isIn then w.compareListOfIntegerWithOther v op else none) = some b →
        (b = true ↔ Relates op v w) := by
    intro l hl hif
    by_cases hop : op = .isIn
    · rw [if_pos hop, hop, compareListOfIntegerWithOther, hl, hv] at hif
      cases hif
      rw [hop, relates_isIn hv (number_of_integerList hl), contains_iff_holds hl]
    · rw [if_neg hop] at hif
      cases hif
  have hnumber : ∀ {right : Int}, w.number = some right →
      (w.number.bind fun right => compareOrdered op left right) = some b →
        (b = true ↔ Relates op v w) := by
    intro right hr hbind
    rw [hr, Option.bind_some] at hbind
    rw [relates_numbers hv hr, compareOrdered_spec hbind]
  cases w with
  | int _ => exact hnumber rfl h
  | enumeration _ => exact hnumber rfl h
  | idD _ => exact hnumber rfl h
  | string _ => cases h
  | listOfInteger l => exact hlist rfl h
  | listOfIdD l => exact hlist rfl h
  | setOfMonads som =>
    change (if op = .isIn then (setOfMonads som).compareSetOfMonads v op else none) = some b at h
    by_cases hop : op = .isIn
    · rw [if_pos hop, hop] at h
      cases v with
      | int i =>
        cases hv
        cases h
        rw [hop, relates_isIn rfl rfl, SetOfMonads.isMemberOf_iff hw]
        rfl
      | _ => cases h
    · rw [if_neg hop] at h
      cases h

/-- **What `compare` answers is right**, as long as nobody asks whether a list is in a number. -/
theorem compare_spec {v w : EMdFValue} {op : ComparisonOp} {b : Bool} (hv : v.Sound)
    (hw : w.Sound) (hin : op = .isIn → w.number = none) (h : v.compare w op = some b) :
    b = true ↔ Relates op v w := by
  cases v with
  | int _ => exact compareInt_spec rfl hw h
  | enumeration _ => exact compareInt_spec rfl hw h
  | idD _ => exact compareInt_spec rfl hw h
  | string left =>
    cases w with
    | string right => rw [relates_strings, compareOrdered_spec h]
    | _ => cases h
  | listOfInteger l => exact compareListOfIntegerWithOther_spec rfl hin h
  | listOfIdD l => exact compareListOfIntegerWithOther_spec rfl hin h
  | setOfMonads som => exact compareSetOfMonads_spec hv hw hin h

/-! ## 6. Looking a value up in a list of numbers -/

/-- The test of `IN` with a list of numbers: a text search. -/
def isFoundIn (v : EMdFValue) (l : List Int) : Bool :=
  decide (32 :: (v.toText ++ [32]) <:+: delimitedString (l.map longlong2string))

/-- A number between blanks is found in the text of a list exactly if it is in the list. -/
theorem infix_delimitedString_iff {l : List Int} {i : Int} (hi : IsIvalue i)
    (hl : ∀ j ∈ l, IsIvalue j) :
    32 :: (longlong2string i ++ [32]) <:+: delimitedString (l.map longlong2string) ↔ i ∈ l := by
  have hwords : ∀ text ∈ l.map longlong2string, (32 : UInt8) ∉ text := by
    intro text ht hmem
    obtain ⟨j, hj, rfl⟩ := List.mem_map.mp ht
    exact ne_of_mem_longlong2string (hl j hj).digits hmem (by decide) rfl
  have hword : (32 : UInt8) ∉ longlong2string i := fun hmem =>
    ne_of_mem_longlong2string hi.digits hmem (by decide) rfl
  rw [delimitedString]
  cases l with
  | nil => simp
  | cons j l =>
    rw [if_neg (by simp), infix_delimited_iff hword hwords]
    constructor
    · intro h
      obtain ⟨k, hk, heq⟩ := List.mem_map.mp h
      rw [← longlong2string_inj (hl k hk).digits hi.digits heq]
      exact hk
    · exact fun h => List.mem_map_of_mem h

theorem isFoundIn_number {v : EMdFValue} {l : List Int} {i : Int} (hv : v.number = some i)
    (hi : IsIvalue i) (hl : ∀ j ∈ l, IsIvalue j) : v.isFoundIn l = true ↔ i ∈ l := by
  have htext : v.toText = longlong2string i := by
    cases v <;> simp_all [number, toText]
  rw [isFoundIn, decide_eq_true_eq, htext, infix_delimitedString_iff hi hl]

/-- The text of a set of monads is in no list of numbers: it has a brace. -/
theorem isFoundIn_setOfMonads (som : SetOfMonads) {l : List Int} (hl : ∀ j ∈ l, IsIvalue j) :
    (setOfMonads som).isFoundIn l = false := by
  rw [isFoundIn, decide_eq_false_iff_not]
  intro h
  have hbrace : (123 : UInt8) ∈ delimitedString (l.map longlong2string) :=
    h.subset (by simp [toText, setOfMonadsText])
  rw [delimitedString] at hbrace
  split at hbrace
  · cases hbrace
  · simp only [List.mem_append, List.mem_flatMap, List.mem_map, List.mem_cons, List.not_mem_nil,
      or_false] at hbrace
    rcases hbrace with ⟨text, ⟨j, hj, rfl⟩, h | h⟩ | h
    · cases h
    · exact ne_of_mem_longlong2string (hl j hj).digits h (by decide) rfl
    · cases h

end EMdFValue

end Emdros
