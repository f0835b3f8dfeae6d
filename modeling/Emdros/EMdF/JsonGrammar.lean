/-
# What the JSON reader accepts

`Derives` is the grammar of `json.yxx` with the values of its actions.  Without a limit to its stack
the reader accepts just the texts of the grammar (`run_top_iff`): the frames always stand for what
the tokens so far can be derived to (`Viable`), and a symbol that is derived is read.

The stack has a limit, and a token that does not fit is dropped with everything before it.
`Leftover` is what remains of the tokens after the last time.  A text of the grammar that overflows
the stack is never accepted (`readAll_none_of_overflow`): too many brackets are then still to be
closed.
-/
import Emdros.EMdF.JsonReader

namespace Emdros

namespace JSONParser

open JSONScanner (Token Scans scan)

/-! ## 1. The grammar -/

/-- The tokens that a symbol derives, and the value that the actions make of them. -/
inductive Derives : NonTerm → List Token → Minor → Prop
  | top_value {X x} (h : Derives .json_value X (.value x)) : Derives .top_value X (.value x)
  | json_value_object {X x} (h : Derives .json_object X (.value x)) :
      Derives .json_value X (.value x)
  | json_value_list {X x} (h : Derives .json_list X (.value x)) : Derives .json_value X (.value x)
  | json_value_boolean {X x} (h : Derives .json_boolean X (.value x)) :
      Derives .json_value X (.value x)
  | json_value_string {X x} (h : Derives .json_string X (.value x)) :
      Derives .json_value X (.value x)
  | json_value_integer {X x} (h : Derives .json_integer X (.value x)) :
      Derives .json_value X (.value x)
  | json_value_null {X x} (h : Derives .json_null X (.value x)) : Derives .json_value X (.value x)
  | json_object {X C x c} (h : Derives .json_key_value_list X (.pairs x))
      (hc : Derives .opt_comma C c) :
      Derives .json_object (.keyBraceOpen :: (X ++ C ++ [.keyBraceClose]))
        (.value (.ofKeyValuePairs x))
  | json_object_empty :
      Derives .json_object [.keyBraceOpen, .keyBraceClose] (.value (.ofKeyValuePairs []))
  | opt_comma : Derives .opt_comma [.keyComma] (.optComma 0)
  | opt_comma_empty : Derives .opt_comma [] (.optComma 0)
  | json_key_value_list_first {X e} (h : Derives .json_key_value_list_element X (.pairs [e])) :
      Derives .json_key_value_list X (.pairs [e])
  | json_key_value_list_next {L X l e} (hl : Derives .json_key_value_list L (.pairs l))
      (h : Derives .json_key_value_list_element X (.pairs [e])) :
      Derives .json_key_value_list (L ++ .keyComma :: X) (.pairs (e :: l))
  | json_key_value_list_element {s X x} (h : Derives .json_value X (.value x)) :
      Derives .json_key_value_list_element (.string s :: .keyColon :: X) (.pairs [(s, x)])
  | json_list_empty :
      Derives .json_list [.keyBracketOpen, .keyBracketClose] (.value (.ofListElements []))
  | json_list {X C x c} (h : Derives .json_value_list X (.elements x))
      (hc : Derives .opt_comma C c) :
      Derives .json_list (.keyBracketOpen :: (X ++ C ++ [.keyBracketClose]))
        (.value (.ofListElements x))
  | json_value_list_first {X e} (h : Derives .json_value X (.value e)) :
      Derives .json_value_list X (.elements [e])
  | json_value_list_next {L X l e} (hl : Derives .json_value_list L (.elements l))
      (h : Derives .json_value X (.value e)) :
      Derives .json_value_list (L ++ .keyComma :: X) (.elements (e :: l))
  | json_string {s} : Derives .json_string [.string s] (.value (.string s))
  | json_boolean_true : Derives .json_boolean [.keyTrue] (.value (.boolean true))
  | json_boolean_false : Derives .json_boolean [.keyFalse] (.value (.boolean false))
  | json_null : Derives .json_null [.keyNull] (.value .null)
  | json_integer {i} : Derives .json_integer [.integer i] (.value (.integer i))

/-! ## 2. Everything that is derived is read -/

/-- The frames after the tokens, on a stack without a limit. -/
def run (fs : List Frame) : List Token → Option (List Frame)
  | [] => some fs
  | t :: T =>
    match read fs t with
    | some fs' => run fs' T
    | none => none

theorem run_append {fs fs' : List Frame} {T : List Token} (h : run fs T = some fs')
    (T' : List Token) : run fs (T ++ T') = run fs' T' := by
  induction T generalizing fs with
  | nil =>
    cases h
    rfl
  | cons t T ih =>
    rw [run] at h
    rw [List.cons_append, run]
    cases hread : read fs t with
    | some fs₁ =>
      rw [hread] at h
      exact ih h
    | none =>
      rw [hread] at h
      cases h

theorem run_cons {fs fs' : List Frame} {t : Token} (h : Reads fs t fs') (T : List Token) :
    run fs (t :: T) = run fs' T := by
  rw [run, h.read]

/-- What it means for a symbol that its tokens are read. -/
def Completes (T : List Token) : NonTerm → Minor → Prop
  | .top_value, .value v => run [] T = some [.top v]
  | .json_key_value_list, .pairs o => ∀ fs, run (.objectOpen :: fs) T = some (.objectPairs o :: fs)
  | .json_key_value_list_element, .pairs [(k, v)] => ∀ f fs o, f.beforeKey = some o →
      run (f :: fs) T = some (.objectPairs ((k, v) :: o.getD []) :: fs)
  | .json_value_list, .elements l => ∀ fs, run (.listOpen :: fs) T = some (.listElements l :: fs)
  | .opt_comma, _ =>
      (∀ l fs, ∃ f, f.elements = some l ∧ run (.listElements l :: fs) T = some (f :: fs)) ∧
        ∀ o fs, ∃ f, f.pairs = some o ∧ run (.objectPairs o :: fs) T = some (f :: fs)
  | .json_key_value_list_element, _ => False
  | _, .value v => ∀ fs, expects fs → run fs T = some (plug v fs)
  | _, _ => False

/-- **Everything that is derived is read**, by induction on the derivation. -/
theorem Derives.completes {x : NonTerm} {T : List Token} {m : Minor} (h : Derives x T m) :
    Completes T x m := by
  induction h with
  | top_value _ ih => exact ih [] trivial
  | json_value_object _ ih => exact ih
  | json_value_list _ ih => exact ih
  | json_value_boolean _ ih => exact ih
  | json_value_string _ ih => exact ih
  | json_value_integer _ ih => exact ih
  | json_value_null _ ih => exact ih
  | json_object _ _ ih ihc =>
    intro fs hexp
    obtain ⟨f, hf, hc⟩ := ihc.2 _ fs
    rw [run_cons (.objectOpen hexp), List.append_assoc, run_append (ih fs), run_append hc,
      run_cons (.objectClose hf)]
    rfl
  | json_object_empty =>
    intro fs hexp
    rw [run_cons (.objectOpen hexp), run_cons (.objectClose rfl)]
    rfl
  | opt_comma =>
    exact ⟨fun l fs => ⟨_, rfl, run_cons .listComma []⟩,
      fun o fs => ⟨_, rfl, run_cons .objectComma []⟩⟩
  | opt_comma_empty => exact ⟨fun l fs => ⟨_, rfl, rfl⟩, fun o fs => ⟨_, rfl, rfl⟩⟩
  | @json_key_value_list_first X e _ ih =>
    obtain ⟨k, v⟩ := e
    exact fun fs => ih .objectOpen fs none rfl
  | @json_key_value_list_next L X l e _ _ ihl ih =>
    intro fs
    obtain ⟨k, v⟩ := e
    rw [run_append (ihl fs), run_cons .objectComma]
    exact ih (.objectComma l) fs (some l) rfl
  | @json_key_value_list_element s X x _ ih =>
    intro f fs o hf
    rw [run_cons (.key hf), run_cons .keyColon, ih (.keyColon o s :: fs) trivial]
    cases o with
    | none => rfl
    | some o => rfl
  | json_list_empty =>
    intro fs hexp
    rw [run_cons (.listOpen hexp), run_cons (.listClose rfl)]
    rfl
  | json_list _ _ ih ihc =>
    intro fs hexp
    obtain ⟨f, hf, hc⟩ := ihc.1 _ fs
    rw [run_cons (.listOpen hexp), List.append_assoc, run_append (ih fs), run_append hc,
      run_cons (.listClose hf)]
    rfl
  | json_value_list_first _ ih => exact fun fs => ih _ trivial
  | @json_value_list_next L X l e _ _ ihl ih =>
    intro fs
    rw [run_append (ihl fs), run_cons .listComma, ih (.listComma l :: fs) trivial]
    rfl
  | json_string => exact fun fs hexp => run_cons (.leaf hexp rfl) []
  | json_boolean_true => exact fun fs hexp => run_cons (.leaf hexp rfl) []
  | json_boolean_false => exact fun fs hexp => run_cons (.leaf hexp rfl) []
  | json_null => exact fun fs hexp => run_cons (.leaf hexp rfl) []
  | json_integer => exact fun fs hexp => run_cons (.leaf hexp rfl) []

/-! ## 3. Everything that is read is derived -/

/-- The tokens of a frame. -/
def Spells : Frame → List Token → Prop
  | .top v, T => Derives .json_value T (.value v)
  | .listOpen, T => T = [.keyBracketOpen]
  | .listElements l, T => ∃ L, Derives .json_value_list L (.elements l) ∧ T = .keyBracketOpen :: L
  | .listComma l, T => ∃ L, Derives .json_value_list L (.elements l) ∧
      T = .keyBracketOpen :: (L ++ [.keyComma])
  | .objectOpen, T => T = [.keyBraceOpen]
  | .objectPairs o, T => ∃ L, Derives .json_key_value_list L (.pairs o) ∧ T = .keyBraceOpen :: L
  | .objectComma o, T => ∃ L, Derives .json_key_value_list L (.pairs o) ∧
      T = .keyBraceOpen :: (L ++ [.keyComma])
  | .key none k, T => T = [.keyBraceOpen, .string k]
  | .key (some o) k, T => ∃ L, Derives .json_key_value_list L (.pairs o) ∧
      T = .keyBraceOpen :: (L ++ [.keyComma, .string k])
  | .keyColon none k, T => T = [.keyBraceOpen, .string k, .keyColon]
  | .keyColon (some o) k, T => ∃ L, Derives .json_key_value_list L (.pairs o) ∧
      T = .keyBraceOpen :: (L ++ [.keyComma, .string k, .keyColon])

/-- **The invariant of reading**: the tokens so far are those of the frames, the innermost last. -/
def Viable : List Frame → List Token → Prop
  | [], T => T = []
  | f :: fs, T => ∃ P Q, T = P ++ Q ∧ Viable fs P ∧ Spells f Q

/-- A value extends what it takes its place in. -/
theorem Viable.plug {fs : List Frame} {P Q : List Token} {v : JSONValue} (h : Viable fs P)
    (hexp : expects fs) (hv : Derives .json_value Q (.value v)) :
    Viable (JSONParser.plug v fs) (P ++ Q) := by
  cases fs with
  | nil =>
    cases h
    exact ⟨[], Q, rfl, rfl, hv⟩
  | cons f fs =>
    obtain ⟨P, Q', rfl, hP, hQ'⟩ := h
    rw [List.append_assoc]
    cases f with
    | listOpen =>
      cases hQ'
      exact ⟨P, _, rfl, hP, Q, .json_value_list_first hv, rfl⟩
    | listComma l =>
      obtain ⟨L, hL, rfl⟩ := hQ'
      exact ⟨P, _, rfl, hP, _, .json_value_list_next hL hv, by simp⟩
    | keyColon o k =>
      cases o with
      | none =>
        cases hQ'
        exact ⟨P, _, rfl, hP, _,
          .json_key_value_list_first (.json_key_value_list_element hv), rfl⟩
      | some o =>
        obtain ⟨L, hL, rfl⟩ := hQ'
        exact ⟨P, _, rfl, hP, _,
          .json_key_value_list_next hL (.json_key_value_list_element hv), by simp⟩
    | _ => exact hexp.elim

theorem derives_leaf {t : Token} {v : JSONValue} (h : leaf t = some v) :
    Derives .json_value [t] (.value v) := by
  cases t with
  | keyTrue =>
    cases h
    exact .json_value_boolean .json_boolean_true
  | keyFalse =>
    cases h
    exact .json_value_boolean .json_boolean_false
  | keyNull =>
    cases h
    exact .json_value_null .json_null
  | integer i =>
    cases h
    exact .json_value_integer .json_integer
  | string s =>
    cases h
    exact .json_value_string .json_string
  | _ => cases h

theorem derives_listClose {f : Frame} {l : List JSONValue} {Q : List Token}
    (hf : f.elements = some l) (h : Spells f Q) :
    Derives .json_value (Q ++ [.keyBracketClose]) (.value (.ofListElements l)) := by
  cases f with
  | listOpen =>
    cases hf
    cases h
    exact .json_value_list .json_list_empty
  | listElements l =>
    cases hf
    obtain ⟨L, hL, rfl⟩ := h
    have hlist := Derives.json_list hL .opt_comma_empty
    rw [List.append_nil] at hlist
    exact .json_value_list hlist
  | listComma l =>
    cases hf
    obtain ⟨L, hL, rfl⟩ := h
    exact .json_value_list (.json_list hL .opt_comma)
  | _ => cases hf

theorem derives_objectClose {f : Frame} {o : List (List UInt8 × JSONValue)} {Q : List Token}
    (hf : f.pairs = some o) (h : Spells f Q) :
    Derives .json_value (Q ++ [.keyBraceClose]) (.value (.ofKeyValuePairs o)) := by
  cases f with
  | objectOpen =>
    cases hf
    cases h
    exact .json_value_object .json_object_empty
  | objectPairs o =>
    cases hf
    obtain ⟨L, hL, rfl⟩ := h
    have hobject := Derives.json_object hL .opt_comma_empty
    rw [List.append_nil] at hobject
    exact .json_value_object hobject
  | objectComma o =>
    cases hf
    obtain ⟨L, hL, rfl⟩ := h
    exact .json_value_object (.json_object hL .opt_comma)
  | _ => cases hf

/-- **A token keeps the invariant**, by the cases of what it can do. -/
theorem Viable.reads {fs fs' : List Frame} {t : Token} (hread : Reads fs t fs') (hnest : Nested fs)
    {P : List Token} (h : Viable fs P) : Viable fs' (P ++ [t]) := by
  cases hread with
  | leaf hexp hleaf => exact h.plug hexp (derives_leaf hleaf)
  | listOpen hexp => exact ⟨P, _, rfl, h, rfl⟩
  | objectOpen hexp => exact ⟨P, _, rfl, h, rfl⟩
  | listComma =>
    obtain ⟨P, Q, rfl, hP, L, hL, rfl⟩ := h
    exact ⟨P, _, List.append_assoc _ _ _, hP, L, hL, rfl⟩
  | objectComma =>
    obtain ⟨P, Q, rfl, hP, L, hL, rfl⟩ := h
    exact ⟨P, _, List.append_assoc _ _ _, hP, L, hL, rfl⟩
  | @keyColon fs o k =>
    obtain ⟨P, Q, rfl, hP, hQ⟩ := h
    cases o with
    | none =>
      cases hQ
      exact ⟨P, _, List.append_assoc _ _ _, hP, rfl⟩
    | some o =>
      obtain ⟨L, hL, rfl⟩ := hQ
      exact ⟨P, _, List.append_assoc _ _ _, hP, L, hL, by simp⟩
  | @key f fs o k hk =>
    obtain ⟨P, Q, rfl, hP, hQ⟩ := h
    cases f with
    | objectOpen =>
      cases hk
      cases hQ
      exact ⟨P, _, List.append_assoc _ _ _, hP, rfl⟩
    | objectComma o =>
      cases hk
      obtain ⟨L, hL, rfl⟩ := hQ
      exact ⟨P, _, List.append_assoc _ _ _, hP, L, hL, by simp⟩
    | _ => cases hk
  | @listClose f fs l hl =>
    obtain ⟨P, Q, rfl, hP, hQ⟩ := h
    rw [List.append_assoc]
    have hvalue := derives_listClose hl hQ
    cases f with
    | listOpen | listElements | listComma => exact hP.plug hnest.1 hvalue
    | _ => cases hl
  | @objectClose f fs o ho =>
    obtain ⟨P, Q, rfl, hP, hQ⟩ := h
    rw [List.append_assoc]
    have hvalue := derives_objectClose ho hQ
    cases f with
    | objectOpen | objectPairs | objectComma => exact hP.plug hnest.1 hvalue
    | _ => cases ho

/-- The invariant along a run. -/
theorem Viable.run {fs fs' : List Frame} {P T : List Token} (h : Viable fs P) (hnest : Nested fs)
    (hrun : JSONParser.run fs T = some fs') : Viable fs' (P ++ T) := by
  induction T generalizing fs P with
  | nil =>
    cases hrun
    rw [List.append_nil]
    exact h
  | cons t T ih =>
    rw [JSONParser.run] at hrun
    cases hread : read fs t with
    | some fs₁ =>
      rw [hread] at hrun
      have hreads := Reads.of_read hread
      have hT := ih (h.reads hreads hnest) (hreads.nested hnest) hrun
      rw [List.append_assoc] at hT
      exact hT
    | none =>
      rw [hread] at hrun
      cases hrun

/-- **The reader without a limit accepts its grammar**, and gives the value of the actions. -/
theorem run_top_iff {T : List Token} {v : JSONValue} :
    run [] T = some [.top v] ↔ Derives .top_value T (.value v) := by
  constructor
  · intro h
    have hempty : Viable [] [] := rfl
    have hviable : Viable [.top v] ([] ++ T) := hempty.run nested_nil h
    obtain ⟨P, Q, hT, rfl, hQ⟩ := hviable
    rw [List.nil_append, List.nil_append] at hT
    rw [hT]
    exact .top_value hQ
  · intro h
    exact h.completes

/-! ## 4. The limit of the stack -/

/-- What follows the first token that does not fit on the stack. -/
def overflow (fs : List Frame) : List Token → Option (List Token)
  | [] => none
  | t :: T =>
    if limit < peak fs t then some T
    else
      match read fs t with
      | some fs' => overflow fs' T
      | none => none

/-- All tokens fit, or those before the first that is an error. -/
def Fits (T : List Token) : Prop := overflow [] T = none

/-- What remains of the tokens after the last time that the stack overflows. -/
inductive Leftover : List Token → List Token → Prop
  | fits {T} (h : Fits T) : Leftover T T
  | spills {T T' S} (h : overflow [] T = some T') (rest : Leftover T' S) : Leftover T S

theorem overflow_length {fs : List Frame} {T T' : List Token} (h : overflow fs T = some T') :
    T'.length < T.length := by
  induction T generalizing fs with
  | nil => cases h
  | cons t T ih =>
    rw [overflow] at h
    split at h
    · cases h
      exact Nat.lt_succ_self _
    · split at h
      · exact Nat.lt_succ_of_lt (ih h)
      · cases h

/-- What is a whole value at the end. -/
def topOf : List Frame → Option JSONValue
  | [.top v] => some v
  | _ => none

theorem readAll_nil (fs : List Frame) : readAll fs [] = topOf fs := by
  cases fs with
  | nil => rfl
  | cons f fs =>
    cases f with
    | top v => cases fs <;> rfl
    | _ => rfl

/-- As long as everything fits, the limit makes no difference. -/
theorem readAll_of_fits {fs : List Frame} {T : List Token} (h : overflow fs T = none) :
    readAll fs T = (run fs T).bind topOf := by
  induction T generalizing fs with
  | nil => exact readAll_nil fs
  | cons t T ih =>
    rw [overflow] at h
    rw [readAll_cons, run]
    by_cases hroom : limit < peak fs t
    · rw [if_pos hroom] at h
      cases h
    · rw [if_neg hroom] at h ⊢
      cases hread : read fs t with
      | some fs' =>
        rw [hread] at h
        exact ih h
      | none => rfl

/-- After an overflow the reader begins anew. -/
theorem readAll_of_overflow {fs : List Frame} {T T' : List Token} (h : overflow fs T = some T') :
    readAll fs T = readAll [] T' := by
  induction T generalizing fs with
  | nil => cases h
  | cons t T ih =>
    rw [overflow] at h
    rw [readAll_cons]
    by_cases hroom : limit < peak fs t
    · rw [if_pos hroom] at h ⊢
      cases h
      rfl
    · rw [if_neg hroom] at h ⊢
      cases hread : read fs t with
      | some fs' =>
        rw [hread] at h
        exact ih h
      | none =>
        rw [hread] at h
        cases h

theorem readAll_fits_iff {T : List Token} (h : Fits T) {v : JSONValue} :
    readAll [] T = some v ↔ Derives .top_value T (.value v) := by
  rw [readAll_of_fits h, ← run_top_iff, Option.bind_eq_some_iff]
  constructor
  · rintro ⟨fs, hrun, htop⟩
    have hfs : fs = [.top v] := by
      unfold topOf at htop
      split at htop
      · cases htop
        rfl
      · cases htop
    rw [hrun, hfs]
  · intro hrun
    exact ⟨_, hrun, rfl⟩

/-- **What the reader accepts**: tokens of which a text of the grammar is left over. -/
theorem readAll_iff {T : List Token} {v : JSONValue} :
    readAll [] T = some v ↔ ∃ S, Leftover T S ∧ Derives .top_value S (.value v) := by
  constructor
  · generalize hn : T.length = n
    induction n using Nat.strongRecOn generalizing T with
    | ind n ih =>
      intro h
      cases hover : overflow [] T with
      | none => exact ⟨T, .fits hover, (readAll_fits_iff hover).mp h⟩
      | some T' =>
        rw [readAll_of_overflow hover] at h
        obtain ⟨S, hS, hv⟩ := ih T'.length (hn ▸ overflow_length hover) rfl h
        exact ⟨S, .spills hover hS, hv⟩
  · rintro ⟨S, hS, hv⟩
    induction hS with
    | fits h => exact (readAll_fits_iff h).mpr hv
    | spills h _ ih =>
      rw [readAll_of_overflow h]
      exact ih hv

/-! ## 5. An overflow is not made good -/

/-- How many more brackets a token opens than it closes. -/
def bracket : Token → Int
  | .keyBracketOpen => 1
  | .keyBraceOpen => 1
  | .keyBracketClose => -1
  | .keyBraceClose => -1
  | _ => 0

def brackets (T : List Token) : Int := (T.map bracket).sum

/-- The lists and objects that are open. -/
def depth : List Frame → Int
  | [] => 0
  | .top _ :: fs => depth fs
  | _ :: fs => depth fs + 1

theorem depth_plug {fs : List Frame} (h : expects fs) (v : JSONValue) :
    depth (plug v fs) = depth fs := by
  cases fs with
  | nil => rfl
  | cons f fs =>
    cases f with
    | listOpen | listComma => rfl
    | keyColon o k => cases o <;> rfl
    | _ => exact h.elim

theorem bracket_leaf {t : Token} {v : JSONValue} (h : leaf t = some v) : bracket t = 0 := by
  cases t with
  | keyBracketOpen | keyBracketClose | keyBraceOpen | keyBraceClose => cases h
  | _ => rfl

theorem Reads.depth_eq {fs fs' : List Frame} {t : Token} (h : Reads fs t fs') (hnest : Nested fs) :
    depth fs' = depth fs + bracket t := by
  cases h with
  | leaf hexp hleaf => rw [depth_plug hexp, bracket_leaf hleaf, Int.add_zero]
  | listOpen | objectOpen => rfl
  | listComma | objectComma | keyColon => exact (Int.add_zero _).symm
  | @key f fs o k hk =>
    cases f with
    | objectOpen | objectComma => exact (Int.add_zero _).symm
    | _ => cases hk
  | @listClose f fs l hl =>
    cases f with
    | listOpen | listElements | listComma =>
      rw [depth_plug hnest.1]
      exact (Int.add_neg_cancel_right _ 1).symm
    | _ => cases hl
  | @objectClose f fs o ho =>
    cases f with
    | objectOpen | objectPairs | objectComma =>
      rw [depth_plug hnest.1]
      exact (Int.add_neg_cancel_right _ 1).symm
    | _ => cases ho

/-- No list or object takes more than five entries. -/
theorem height_le_depth {fs : List Frame} (hnest : Nested fs) :
    (height fs : Int) ≤ 5 * depth fs + 1 := by
  induction fs with
  | nil => decide
  | cons f fs ih =>
    cases f with
    | top v =>
      have hfs : fs = [] := hnest
      rw [hfs]
      exact Int.le_refl _
    | key o k =>
      have hle := ih hnest.2
      cases o <;> simp only [height, Frame.height, depth] <;> omega
    | keyColon o k =>
      have hle := ih hnest.2
      cases o <;> simp only [height, Frame.height, depth] <;> omega
    | _ =>
      have hle := ih hnest.2
      simp only [height, Frame.height, depth]
      omega

theorem peak_le (fs : List Frame) (t : Token) : peak fs t ≤ height fs + 2 := by
  unfold peak
  split
  · exact Nat.le_refl _
  · exact Nat.le_succ _
  · exact Nat.le_refl _
  · exact Nat.le_succ _
  · split
    · exact Nat.le_succ _
    · exact Nat.le_add_right _ 2

/-- Where the stack is full something is open, and a token does not change that. -/
theorem one_le_of_overflow {fs : List Frame} (hnest : Nested fs) {t : Token}
    (h : limit < peak fs t) : 1 ≤ depth fs + bracket t := by
  have hpeak := peak_le fs t
  have hdepth := height_le_depth hnest
  have hbracket : -1 ≤ bracket t := by
    cases t with
    | integer | string => exact (by decide : (-1 : Int) ≤ 0)
    | _ => decide
  unfold limit at h
  omega

/-- **Of accepted tokens** no more are closed than are open before and among them. -/
theorem depth_of_readAll {fs : List Frame} (hnest : Nested fs) {T : List Token} {v : JSONValue}
    (h : readAll fs T = some v) : 0 ≤ depth fs + brackets T := by
  induction T generalizing fs with
  | nil =>
    rw [readAll_nil] at h
    unfold topOf at h
    split at h
    · exact Int.le_refl _
    · cases h
  | cons t T ih =>
    rw [brackets, List.map_cons, List.sum_cons]
    rw [readAll_cons] at h
    split at h
    · rename_i hover
      have hopen := one_le_of_overflow hnest hover
      have hrest : 0 ≤ 0 + brackets T := ih nested_nil h
      rw [brackets] at hrest
      omega
    · split at h
      · rename_i hread
        have hreads := Reads.of_read hread
        have hrest := ih (hreads.nested hnest) h
        rw [hreads.depth_eq hnest, brackets] at hrest
        omega
      · cases h

/-- After an overflow, tokens that are accepted leave something open. -/
theorem depth_of_overflow {fs : List Frame} (hnest : Nested fs) {T T' : List Token}
    (hover : overflow fs T = some T') {v : JSONValue} (h : readAll [] T' = some v) :
    1 ≤ depth fs + brackets T := by
  induction T generalizing fs with
  | nil => cases hover
  | cons t T ih =>
    rw [brackets, List.map_cons, List.sum_cons]
    rw [overflow] at hover
    split at hover
    · rename_i hfull
      cases hover
      have hopen := one_le_of_overflow hnest hfull
      have hrest : 0 ≤ 0 + brackets T' := depth_of_readAll nested_nil h
      rw [brackets] at hrest
      omega
    · split at hover
      · rename_i hread
        have hreads := Reads.of_read hread
        have hrest := ih (hreads.nested hnest) hover
        rw [hreads.depth_eq hnest, brackets] at hrest
        omega
      · cases hover

theorem depth_of_run {fs fs' : List Frame} (hnest : Nested fs) {T : List Token}
    (h : run fs T = some fs') : depth fs' = depth fs + brackets T := by
  induction T generalizing fs with
  | nil =>
    cases h
    exact (Int.add_zero _).symm
  | cons t T ih =>
    rw [brackets, List.map_cons, List.sum_cons]
    rw [run] at h
    split at h
    · rename_i hread
      have hreads := Reads.of_read hread
      have hrest := ih (hreads.nested hnest) h
      rw [hreads.depth_eq hnest, brackets] at hrest
      omega
    · cases h

/-- **A text of the grammar that overflows the stack is rejected.** -/
theorem readAll_none_of_overflow {T : List Token} {v : JSONValue}
    (hv : Derives .top_value T (.value v)) (h : ¬Fits T) : readAll [] T = none := by
  cases hover : overflow [] T with
  | none => exact absurd hover h
  | some T' =>
    rw [readAll_of_overflow hover]
    cases hread : readAll [] T' with
    | none => rfl
    | some w =>
      have hopen : 1 ≤ depth [] + brackets T := depth_of_overflow nested_nil hover hread
      have hclosed : 0 = depth [] + brackets T := 
        depth_of_run nested_nil (run_top_iff.mpr hv)
      omega

/-! ## 6. The reader and its grammar -/

/-- `readAndParseJSONFromString` gives a value. -/
def Accepts (json_string : List UInt8) : Prop :=
  ∃ v message, readAndParseJSONFromString json_string [] = some (some v, message)

/-- The whole text is made of tokens that are derived from `top_value`. -/
def InGrammar (json_string : List UInt8) : Prop :=
  ∃ T v, Scans json_string T true ∧ Derives .top_value T (.value v)

theorem accepts_iff {json_string : List UInt8} {T : List Token} {b : Bool}
    (h : Scans json_string T b) :
    Accepts json_string ↔ ∃ v, readAll [] T = some v := by
  obtain ⟨message, hread⟩ := readAndParse_reads h []
  constructor
  · rintro ⟨v, message', hv⟩
    rw [hread] at hv
    cases hrest : readAll [] T with
    | none =>
      rw [hrest] at hv
      cases hv
    | some w => exact ⟨w, rfl⟩
  · rintro ⟨v, hv⟩
    rw [hv] at hread
    exact ⟨v, message, hread⟩

/-- **When the reader accepts exactly its grammar.**  On a text without a zero byte it does so if
and only if two things do not happen.  What is left of the tokens after the last overflow of the
stack is a text of the grammar, although the stack did overflow or the scanner stopped before the
end; or the stack overflows on a text of the grammar. -/
theorem accepts_iff_inGrammar_iff (json_string : List UInt8) (h0 : 0 ∉ json_string) :
    (Accepts json_string ↔ InGrammar json_string) ↔
      ∀ T b, Scans json_string T b →
        (∀ S v, Leftover T S → Derives .top_value S (.value v) → S = T ∧ b = true) ∧
          (∀ v, b = true → Derives .top_value T (.value v) → Fits T) := by
  obtain ⟨T, b, hscan⟩ := JSONScanner.exists_scans _ json_string (Nat.le_refl _) h0
  have haccepts : Accepts json_string ↔
      ∃ v S, Leftover T S ∧ Derives .top_value S (.value v) := by
    rw [accepts_iff hscan]
    exact exists_congr fun v => readAll_iff
  have hgrammar : InGrammar json_string ↔ b = true ∧ ∃ v, Derives .top_value T (.value v) := by
    constructor
    · rintro ⟨T', v, hscan', hv⟩
      obtain ⟨rfl, rfl⟩ := hscan.unique hscan'
      exact ⟨rfl, v, hv⟩
    · rintro ⟨rfl, v, hv⟩
      exact ⟨T, v, hscan, hv⟩
  constructor
  · intro hiff T' b' hscan'
    obtain ⟨rfl, rfl⟩ := hscan.unique hscan'
    constructor
    · intro S v hS hv
      obtain ⟨hb, w, hw⟩ := hgrammar.mp (hiff.mp (haccepts.mpr ⟨v, S, hS, hv⟩))
      by_cases hfits : Fits T'
      · cases hS with
        | fits => exact ⟨rfl, hb⟩
        | spills hover _ => exact absurd (hfits.symm.trans hover) nofun
      · have hnone := readAll_none_of_overflow hw hfits
        rw [readAll_iff.mpr ⟨S, hS, hv⟩] at hnone
        cases hnone
    · intro v hb hv
      by_cases hfits : Fits T'
      · exact hfits
      · obtain ⟨w, S, hS, hw⟩ := haccepts.mp (hiff.mpr (hgrammar.mpr ⟨hb, v, hv⟩))
        have hnone := readAll_none_of_overflow hv hfits
        rw [readAll_iff.mpr ⟨S, hS, hw⟩] at hnone
        cases hnone
  · intro hcond
    obtain ⟨hleft, hfits⟩ := hcond T b hscan
    rw [haccepts, hgrammar]
    constructor
    · rintro ⟨v, S, hS, hv⟩
      obtain ⟨rfl, hb⟩ := hleft S v hS hv
      exact ⟨hb, v, hv⟩
    · rintro ⟨hb, v, hv⟩
      exact ⟨v, T, .fits (hfits v hb hv), hv⟩

/-- A list with a comma at its end is in the grammar, and is read. -/
theorem accepts_iff_inGrammar_list :
    Accepts (Lexer.bytes "[1, ]") ↔ InGrammar (Lexer.bytes "[1, ]") := by
  refine (accepts_iff_inGrammar_iff (Lexer.bytes "[1, ]") (by decide)).mpr ?_
  intro T b hscan
  have h₁ : scan (Lexer.bytes "[1, ]") = some (.token .keyBracketOpen (Lexer.bytes "1, ]")) := by
    decide +kernel
  have h₂ : scan (Lexer.bytes "1, ]") = some (.token (.integer 1) (Lexer.bytes ", ]")) := by
    decide +kernel
  have h₃ : scan (Lexer.bytes ", ]") = some (.token .keyComma (Lexer.bytes " ]")) := by
    decide +kernel
  have h₄ : scan (Lexer.bytes " ]") = some (.token .keyBracketClose []) := by decide +kernel
  have hscan' := Scans.token h₁ (.token h₂ (.token h₃ (.token h₄ (.eof rfl))))
  obtain ⟨rfl, rfl⟩ := hscan'.unique hscan
  have hfits : Fits [.keyBracketOpen, .integer 1, .keyComma, .keyBracketClose] := rfl
  refine ⟨?_, fun _ _ _ => hfits⟩
  intro S v hS _
  cases hS with
  | fits => exact ⟨rfl, rfl⟩
  | spills hover _ => cases hfits.symm.trans hover

/-- The scanner stops at the fraction, and what was read before it is accepted. -/
theorem accepts_fraction :
    ¬(Accepts (Lexer.bytes "1.5") ↔ InGrammar (Lexer.bytes "1.5")) := by
  have h₁ : scan (Lexer.bytes "1.5") = some (.token (.integer 1) (Lexer.bytes ".5")) := by
    decide +kernel
  have h₂ : scan (Lexer.bytes ".5") = some .stray := by decide +kernel
  have hscan := Scans.token h₁ (.stray h₂)
  intro h
  obtain ⟨T, v, hscan', _⟩ := h.mp ((accepts_iff hscan).mpr ⟨_, rfl⟩)
  cases (hscan'.unique hscan).2

end JSONParser

end Emdros
