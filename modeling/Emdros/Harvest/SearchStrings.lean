/-
# Search strings (`harvest_fts3.cpp`, `harvest_fts.cpp`)

A search string has words between blanks, and stretches between double quotes.  Search engine 3
reads it with `FTS3Tokenizer`, byte by byte; the other engines cut it at the quotes first.

The tokenizer ends a word at a blank and at a quote that closes, not at one that opens, and makes
a list for every quote that opens whether or not the quotes mean anything: `process_eq_iff`.
`harvestFTSGoogleTokenize` finds the segments for all strings, and its caller takes the first of
the results without looking whether there is one: `googleSearch_iff`.
-/
import Mathlib
import Emdros.Harvest.BookcaseHits
import Emdros.Harvest.Indexing

namespace Emdros

/-! ## 1. Segments and words -/

namespace SearchString

/-- The maximal stretches without a double quote, before, between and after the quotes. -/
def segments (s : List UInt8) : List (List UInt8) := s.splitOnP (· == 34)

/-- The maximal stretches of bytes that are not blank, for a notion of blank. -/
def words (isBlank : UInt8 → Bool) (s : List UInt8) : List (List UInt8) :=
  (s.splitOnP isBlank).filter fun w => !w.isEmpty

/-- Every other segment, from the first or from the second on. -/
def alternate (keep : Bool) : List (List UInt8) → List (List UInt8)
  | [] => []
  | g :: gs => if keep then g :: alternate false gs else alternate true gs

/-- The segments outside the quotes. -/
def outside (s : List UInt8) : List (List UInt8) := alternate true (segments s)

/-- The segments inside, the last of which may lack its closing quote. -/
def inside (s : List UInt8) : List (List UInt8) := alternate false (segments s)

/-- The word, if it is one. -/
def ended (w : List UInt8) : List (List UInt8) := if w.isEmpty then [] else [w]

/-- The words that a blank ends, and the word that is still open at the end, after `w`. -/
def split (isBlank : UInt8 → Bool) (w : List UInt8) : List UInt8 → List (List UInt8) × List UInt8
  | [] => ([], w)
  | c :: s =>
    if isBlank c then (ended w ++ (split isBlank [] s).1, (split isBlank [] s).2)
    else split isBlank (w ++ [c]) s

section Words

variable {isBlank : UInt8 → Bool}

/-- The words are those that a blank ends and the one that the end does. -/
theorem split_eq_words (s : List UInt8) : ∀ w : List UInt8, (∀ c ∈ w, isBlank c = false) →
    (split isBlank w s).1 ++ ended (split isBlank w s).2 = words isBlank (w ++ s) := by
  induction s with
  | nil =>
    intro w hw
    rw [List.append_nil, words, List.splitOnP_eq_singleton hw]
    cases w <;> rfl
  | cons c s ih =>
    intro w hw
    cases hc : isBlank c with
    | true =>
      have hnext := ih [] (by simp)
      rw [List.nil_append] at hnext
      rw [split, if_pos hc, List.append_assoc, hnext, words, words,
        List.splitOnP_append_cons_of_forall_mem hw c hc, List.filter_cons]
      cases w <;> rfl
    | false =>
      rw [split, if_neg (by simp [hc])]
      have hnext := ih (w ++ [c]) (by
        intro d hd
        rcases List.mem_append.mp hd with hd | hd
        · exact hw d hd
        · rw [List.mem_singleton.mp hd]
          exact hc)
      rw [hnext, List.append_assoc]
      rfl

/-- The open word has no blank. -/
theorem split_free (s : List UInt8) : ∀ w : List UInt8, (∀ c ∈ w, isBlank c = false) →
    ∀ c ∈ (split isBlank w s).2, isBlank c = false := by
  induction s with
  | nil => exact fun _ hw => hw
  | cons c s ih =>
    intro w hw
    cases hc : isBlank c with
    | true =>
      rw [split, if_pos hc]
      exact ih [] (by simp)
    | false =>
      rw [split, if_neg (by simp [hc])]
      refine ih _ fun d hd => ?_
      rcases List.mem_append.mp hd with hd | hd
      · exact hw d hd
      · rw [List.mem_singleton.mp hd]
        exact hc

/-- No word is open where the text is empty or ends with a blank. -/
theorem split_snd_eq_nil_iff (s : List UInt8) : ∀ w : List UInt8,
    (split isBlank w s).2 = [] ↔ ∀ c ∈ (w ++ s).getLast?, s ≠ [] ∧ isBlank c = true := by
  induction s with
  | nil =>
    intro w
    cases w with
    | nil => simp [split]
    | cons d w => simp [split, List.getLast?_cons]
  | cons c s ih =>
    intro w
    cases hc : isBlank c with
    | true =>
      rw [split, if_pos hc, ih]
      cases s with
      | nil => simp [hc]
      | cons d s => simp [List.getLast?_append, List.getLast?_cons]
    | false =>
      rw [split, if_neg (by simp [hc]), ih]
      cases s with
      | nil => simp [hc]
      | cons d s => simp [List.getLast?_append, List.getLast?_cons]

end Words

/-- A property of texts, from one quote to the next. -/
theorem induction_on_quotes {P : List UInt8 → Prop} (hfree : ∀ g, 34 ∉ g → P g)
    (hquote : ∀ g s, 34 ∉ g → P s → P (g ++ 34 :: s)) (s : List UInt8) : P s := by
  induction hlen : s.length using Nat.strong_induction_on generalizing s with
  | _ n ih =>
    by_cases hs : (34 : UInt8) ∈ s
    · obtain ⟨g, rest, rfl, hg⟩ := List.eq_append_cons_of_mem hs
      refine hquote g rest hg (ih rest.length ?_ rest rfl)
      rw [← hlen, List.length_append, List.length_cons]
      omega
    · exact hfree s hs

theorem segments_of_free {g : List UInt8} (hg : 34 ∉ g) : segments g = [g] := by
  refine List.splitOnP_eq_singleton fun c hc => ?_
  rw [beq_eq_false_iff_ne]
  rintro rfl
  exact hg hc

theorem segments_append {g : List UInt8} (hg : 34 ∉ g) (s : List UInt8) :
    segments (g ++ 34 :: s) = g :: segments s := by
  refine List.splitOnP_append_cons_of_forall_mem (fun c hc => ?_) 34 rfl s
  rw [beq_eq_false_iff_ne]
  rintro rfl
  exact hg hc

end SearchString

/-! ## 2. The tokenizer of search engine 3 -/

namespace FTS3Tokenizer

open SearchString

/-- `eQuoteState`. -/
inductive QuoteState where
  | noQuote
  | inQuote
  deriving DecidableEq, Repr

/-- `eTokenState`. -/
inductive TokenState where
  | outOfToken
  | inToken
  deriving DecidableEq, Repr

/-- `StringMPairList`: terms with their indexes. -/
abbrev StringMPairList := List (List UInt8 × Int)

/-- The members of `class FTS3Tokenizer`. -/
structure Lists where
  noOrderList : StringMPairList
  orderListList : List StringMPairList
  deriving DecidableEq, Repr

/-- `(*rit).push_back(…)` on the last list, with the index after that of its last term. -/
def pushBack (l : StringMPairList) (tokenStr : List UInt8) : StringMPairList :=
  l ++ [(tokenStr, ((l.getLast?.map Prod.snd).map (· + 1)).getD 0)]

/-- `emit_token`. -/
def emitToken (tokenStr : List UInt8) (bUseGoogleSyntax : Bool) (quoteState : QuoteState)
    (m : Lists) : Lists :=
  if tokenStr.isEmpty then m
  else if bUseGoogleSyntax then
    match quoteState with
    | .noQuote => { m with noOrderList := m.noOrderList ++ [(tokenStr, -1)] }
    | .inQuote =>
      let orderListList := if m.orderListList.isEmpty then [[]] else m.orderListList
      { m with
        orderListList :=
          orderListList.dropLast ++ [pushBack (orderListList.getLast?.getD []) tokenStr] }
  else { m with noOrderList := m.noOrderList ++ [(tokenStr, -1)] }

/-- The variables of `process`. -/
structure Locals where
  lists : Lists
  quoteState : QuoteState
  state : TokenState
  token : List UInt8
  deriving DecidableEq, Repr

def isBlank (c : UInt8) : Bool := c == 32 || c == 9 || c == 10 || c == 13

/-- The body of the loop of `process`. -/
def step (bUseGoogleSyntax : Bool) (v : Locals) (c : UInt8) : Locals :=
  if c = 34 then
    match v.quoteState with
    | .noQuote =>
      { v with
        quoteState := .inQuote
        lists := { v.lists with orderListList := v.lists.orderListList ++ [[]] } }
    | .inQuote =>
      { v with
        lists := emitToken v.token bUseGoogleSyntax v.quoteState v.lists
        token := []
        quoteState := .noQuote }
  else if isBlank c then
    match v.state with
    | .outOfToken => v
    | .inToken =>
      { v with
        state := .outOfToken
        lists := emitToken v.token bUseGoogleSyntax v.quoteState v.lists
        token := [] }
  else { v with state := .inToken, token := v.token ++ [c] }

/-- `process`. -/
def process (bUseGoogleSyntax : Bool) (termString : List UInt8) : List StringMPairList :=
  let v := termString.foldl (step bUseGoogleSyntax) ⟨⟨[], []⟩, .noQuote, .outOfToken, []⟩
  let m := emitToken v.token bUseGoogleSyntax v.quoteState v.lists
  m.noOrderList :: m.orderListList

/-- Terms that may be anywhere. -/
def unordered (ws : List (List UInt8)) : StringMPairList := ws.map fun w => (w, -1)

/-- Terms one behind the other. -/
def ordered (ws : List (List UInt8)) : StringMPairList :=
  ws.zipIdx.map fun w => (w.1, (w.2 : Int))

/-- What `process` should return. -/
def documented (bUseGoogleSyntax : Bool) (termString : List UInt8) : List StringMPairList :=
  if bUseGoogleSyntax then
    unordered ((outside termString).flatMap (words isBlank)) ::
      (inside termString).map fun stretch => ordered (words isBlank stretch)
  else [unordered ((segments termString).flatMap (words isBlank))]

/-- No quote opens directly behind a word. -/
def OpensApart : Bool → List (List UInt8) → Prop
  | _, [] => True
  | _, [_] => True
  | true, g :: g' :: gs => (∀ c ∈ g.getLast?, isBlank c = true) ∧ OpensApart false (g' :: gs)
  | false, _ :: g' :: gs => OpensApart true (g' :: gs)

/-- Where the tokenizer returns what it should. -/
def Separated (bUseGoogleSyntax : Bool) (termString : List UInt8) : Prop :=
  if bUseGoogleSyntax then OpensApart true (segments termString) else 34 ∉ termString

section Loop

variable {b : Bool} {m : Lists} {q : QuoteState}

theorem split_fst_ne_nil (s : List UInt8) : ∀ w : List UInt8,
    ∀ t ∈ (split isBlank w s).1, t ≠ [] := by
  have hended : ∀ w : List UInt8, ∀ t ∈ ended w, t ≠ [] := by
    intro w t ht
    cases w with
    | nil => cases ht
    | cons c w =>
      obtain rfl := List.mem_singleton.mp ht
      exact List.cons_ne_nil _ _
  induction s with
  | nil => exact fun _ _ ht => by cases ht
  | cons c s ih =>
    intro w t ht
    rw [split] at ht
    split at ht
    · rcases List.mem_append.mp ht with ht | ht
      · exact hended w t ht
      · exact ih [] t ht
    · exact ih _ t ht

@[simp] theorem emitToken_nil : emitToken [] b q m = m := rfl

/-- The words are emitted one after the other. -/
def emitAll (ws : List (List UInt8)) (b : Bool) (q : QuoteState) (m : Lists) : Lists :=
  ws.foldl (fun m w => emitToken w b q m) m

theorem emitAll_append (ws ws' : List (List UInt8)) :
    emitAll (ws ++ ws') b q m = emitAll ws' b q (emitAll ws b q m) := List.foldl_append

theorem emitAll_ended (w : List UInt8) : emitAll (ended w) b q m = emitToken w b q m := by
  cases w <;> rfl

/-- **A stretch without quotes**: its words are emitted but for the last, which stays open. -/
theorem foldl_step_free {g : List UInt8} (hg : 34 ∉ g) : ∀ v : Locals,
    (v.state = .outOfToken → v.token = []) →
      ∃ state, g.foldl (step b) v = ⟨emitAll (split isBlank v.token g).1 b v.quoteState v.lists,
          v.quoteState, state, (split isBlank v.token g).2⟩ ∧
        (state = .outOfToken → (split isBlank v.token g).2 = []) := by
  induction g with
  | nil => exact fun v hv => ⟨v.state, rfl, hv⟩
  | cons c g ih =>
    intro v hv
    obtain ⟨hc, hrest⟩ := not_or.mp (mt List.mem_cons.mpr hg)
    cases hblank : isBlank c with
    | true =>
      have hstep : step b v c =
          ⟨emitToken v.token b v.quoteState v.lists, v.quoteState, .outOfToken, []⟩ := by
        rw [step, if_neg (Ne.symm hc), if_pos hblank]
        obtain ⟨lists, quoteState, state, token⟩ := v
        cases state with
        | inToken => rfl
        | outOfToken =>
          obtain rfl := hv rfl
          rfl
      obtain ⟨state, hfold, hstate⟩ := ih hrest (step b v c) (by rw [hstep]; exact fun _ => rfl)
      rw [hstep] at hfold hstate
      refine ⟨state, ?_, ?_⟩
      · rw [List.foldl_cons, hstep, hfold, split, if_pos hblank, emitAll_append, emitAll_ended]
      · rw [split, if_pos hblank]
        exact hstate
    | false =>
      have hstep : step b v c = { v with state := .inToken, token := v.token ++ [c] } := by
        rw [step, if_neg (Ne.symm hc), if_neg (by simp [hblank])]
      obtain ⟨state, hfold, hstate⟩ := ih hrest (step b v c) (by
        rw [hstep]
        exact fun h => by cases h)
      rw [hstep] at hfold hstate
      refine ⟨state, ?_, ?_⟩
      · rw [List.foldl_cons, hstep, hfold, split, if_neg (by simp [hblank])]
      · rw [split, if_neg (by simp [hblank])]
        exact hstate

/-- Words outside the quotes go to the one list, and without the syntax all do. -/
theorem emitAll_unordered (h : b = true → q = .noQuote) : ∀ {ws : List (List UInt8)} {m : Lists},
    (∀ w ∈ ws, w ≠ []) →
      emitAll ws b q m = { m with noOrderList := m.noOrderList ++ unordered ws }
  | [], m, _ => by simp [emitAll, unordered]
  | w :: ws, m, hws => by
    obtain ⟨hw, hws⟩ := List.forall_mem_cons.mp hws
    have hone : emitToken w b q m = { m with noOrderList := m.noOrderList ++ [(w, -1)] } := by
      unfold emitToken
      rw [if_neg (by simpa using hw)]
      cases b with
      | false => rfl
      | true =>
        obtain rfl := h rfl
        rfl
    change emitAll ws b q (emitToken w b q m) = _
    rw [hone, emitAll_unordered h hws]
    simp [unordered]

/-- The next word of a stretch. -/
theorem pushBack_ordered (ws : List (List UInt8)) (w : List UInt8) :
    pushBack (ordered ws) w = ordered (ws ++ [w]) := by
  unfold pushBack ordered
  rw [List.zipIdx_append, List.map_append]
  refine congrArg _ ?_
  induction ws using List.reverseRecOn with
  | nil => rfl
  | append_singleton ws x _ => simp [List.zipIdx_append]

/-- Words inside the quotes go to the last of the other lists. -/
theorem emitAll_ordered {no : StringMPairList} {os : List StringMPairList} :
    ∀ {ws l : List (List UInt8)}, (∀ w ∈ ws, w ≠ []) →
      emitAll ws true .inQuote ⟨no, os ++ [ordered l]⟩ = ⟨no, os ++ [ordered (l ++ ws)]⟩
  | [], l, _ => by simp [emitAll]
  | w :: ws, l, hws => by
    obtain ⟨hw, hws⟩ := List.forall_mem_cons.mp hws
    have hone : emitToken w true .inQuote ⟨no, os ++ [ordered l]⟩ =
        ⟨no, os ++ [ordered (l ++ [w])]⟩ := by
      unfold emitToken
      rw [if_neg (by simpa using hw), ← pushBack_ordered]
      simp
    change emitAll ws true .inQuote (emitToken w true .inQuote ⟨no, os ++ [ordered l]⟩) = _
    rw [hone, emitAll_ordered hws]
    simp

end Loop

/-! ### With the syntax -/

/-- The words that come to the list of those outside; `w` is open at the beginning. -/
def emitted : Bool → List UInt8 → List (List UInt8) → List (List UInt8)
  | _, _, [] => []
  | true, w, [g] => words isBlank (w ++ g)
  | true, w, g :: g' :: gs =>
    (split isBlank w g).1 ++ emitted false (split isBlank w g).2 (g' :: gs)
  | false, _, [_] => []
  | false, _, _ :: g' :: gs => emitted true [] (g' :: gs)

/-- The words that come to the lists of the stretches. -/
def stretches : Bool → List UInt8 → List (List UInt8) → List (List (List UInt8))
  | _, _, [] => []
  | true, _, [_] => []
  | true, w, g :: g' :: gs => stretches false (split isBlank w g).2 (g' :: gs)
  | false, w, [g] => [words isBlank (w ++ g)]
  | false, w, g :: g' :: gs => words isBlank (w ++ g) :: stretches true [] (g' :: gs)

/-- What the loop and the last `emit_token` make of the rest of the string. -/
def finish (b : Bool) (v : Locals) (s : List UInt8) : Lists :=
  let v := s.foldl (step b) v
  emitToken v.token b v.quoteState v.lists

section Google

theorem words_ne_nil (s : List UInt8) : ∀ w ∈ words isBlank s, w ≠ [] := by
  intro w hw
  have h := (List.mem_filter.mp hw).2
  rintro rfl
  cases h

/-- The words up to the end of a stretch. -/
theorem emitAll_split {b : Bool} {q : QuoteState} {m : Lists} {w : List UInt8}
    (hw : ∀ c ∈ w, isBlank c = false) (g : List UInt8) :
    emitToken (split isBlank w g).2 b q (emitAll (split isBlank w g).1 b q m) =
      emitAll (words isBlank (w ++ g)) b q m := by
  rw [← split_eq_words g w hw, emitAll_append, emitAll_ended]

theorem exists_segments (s : List UInt8) : ∃ g gs, segments s = g :: gs :=
  List.exists_cons_of_ne_nil (List.splitOnP_ne_nil _ s)

/-- **What the tokenizer returns**, from a quote on or from an end of one. -/
theorem finish_google (s : List UInt8) : ∀ (w : List UInt8) (no : StringMPairList)
    (os : List StringMPairList) (state : TokenState), (∀ c ∈ w, isBlank c = false) →
      (state = .outOfToken → w = []) →
      finish true ⟨⟨no, os⟩, .noQuote, state, w⟩ s =
          ⟨no ++ unordered (emitted true w (segments s)),
            os ++ (stretches true w (segments s)).map ordered⟩ ∧
        finish true ⟨⟨no, os ++ [[]]⟩, .inQuote, state, w⟩ s =
          ⟨no ++ unordered (emitted false w (segments s)),
            os ++ (stretches false w (segments s)).map ordered⟩ := by
  have hlist : ∀ os : List StringMPairList, os ++ [[]] = os ++ [ordered []] := fun _ => rfl
  induction s using induction_on_quotes with
  | hfree g hg =>
    intro w no os state hw hstate
    rw [segments_of_free hg]
    constructor
    · obtain ⟨state', hfold, -⟩ := foldl_step_free (b := true) hg
        ⟨⟨no, os⟩, .noQuote, state, w⟩ hstate
      rw [finish, hfold, emitAll_split hw, emitAll_unordered (fun _ => rfl) (words_ne_nil _)]
      simp [emitted, stretches]
    · obtain ⟨state', hfold, -⟩ := foldl_step_free (b := true) hg
        ⟨⟨no, os ++ [[]]⟩, .inQuote, state, w⟩ hstate
      rw [finish, hfold, emitAll_split hw, hlist, emitAll_ordered (words_ne_nil _)]
      simp [emitted, stretches, unordered]
  | hquote g s hg ih =>
    intro w no os state hw hstate
    obtain ⟨g', gs, hgs⟩ := exists_segments s
    rw [segments_append hg, hgs]
    rw [hgs] at ih
    constructor
    · obtain ⟨state', hfold, hstate'⟩ := foldl_step_free (b := true) hg
        ⟨⟨no, os⟩, .noQuote, state, w⟩ hstate
      have hnext := (ih (split isBlank w g).2 (no ++ unordered (split isBlank w g).1) os state'
        (split_free g w hw) hstate').2
      rw [finish] at hnext ⊢
      rw [List.foldl_append, hfold, List.foldl_cons,
        emitAll_unordered (fun _ => rfl) (split_fst_ne_nil g w)]
      refine hnext.trans ?_
      simp [emitted, stretches, unordered]
    · obtain ⟨state', hfold, hstate'⟩ := foldl_step_free (b := true) hg
        ⟨⟨no, os ++ [[]]⟩, .inQuote, state, w⟩ hstate
      have hclose : step true ⟨emitAll (split isBlank w g).1 true .inQuote ⟨no, os ++ [[]]⟩,
          .inQuote, state', (split isBlank w g).2⟩ 34 =
          ⟨⟨no, os ++ [ordered (words isBlank (w ++ g))]⟩, .noQuote, state', []⟩ := by
        have hemit := emitAll_split (b := true) (q := .inQuote) (m := ⟨no, os ++ [[]]⟩) hw g
        rw [hlist, emitAll_ordered (words_ne_nil _), List.nil_append] at hemit
        rw [step, if_pos rfl, hlist]
        dsimp only
        rw [hemit]
      have hnext := (ih [] no (os ++ [ordered (words isBlank (w ++ g))]) state'
        (by simp) fun _ => rfl).1
      rw [finish] at hnext ⊢
      rw [List.foldl_append, hfold, List.foldl_cons, hclose]
      refine hnext.trans ?_
      simp [emitted, stretches]

theorem process_google (s : List UInt8) : process true s =
    unordered (emitted true [] (segments s)) ::
      (stretches true [] (segments s)).map ordered := by
  have h := (finish_google s [] [] [] .outOfToken (by simp) fun _ => rfl).1
  rw [List.nil_append, List.nil_append] at h
  change (finish true ⟨⟨[], []⟩, .noQuote, .outOfToken, []⟩ s).noOrderList ::
    (finish true ⟨⟨[], []⟩, .noQuote, .outOfToken, []⟩ s).orderListList = _
  rw [h]

/-- Words are lost outside exactly where a quote opens behind one. -/
theorem length_emitted (segs : List (List UInt8)) : ∀ (out : Bool) (w : List UInt8),
    (out = true → w = []) →
      (emitted out w segs).length ≤ ((alternate out segs).flatMap (words isBlank)).length ∧
        ((emitted out w segs).length = ((alternate out segs).flatMap (words isBlank)).length ↔
          OpensApart out segs) := by
  induction segs with
  | nil => exact fun out _ _ => ⟨le_refl _, iff_of_true (by cases out <;> rfl) trivial⟩
  | cons g gs ih =>
    intro out w hw
    cases gs with
    | nil =>
      cases out with
      | true =>
        obtain rfl := hw rfl
        simp [emitted, alternate, OpensApart]
      | false => simp [emitted, alternate, OpensApart]
    | cons g' gs =>
      cases out with
      | false => exact ih true [] fun _ => rfl
      | true =>
        obtain rfl := hw rfl
        obtain ⟨hle, hiff⟩ := ih false (split isBlank [] g).2 fun h => by cases h
        have hsplit := @split_eq_words isBlank g [] (by simp)
        have hopen := @split_snd_eq_nil_iff isBlank g []
        rw [List.nil_append] at hsplit hopen
        have hapart : (split isBlank [] g).2 = [] ↔ ∀ c ∈ g.getLast?, isBlank c = true := by
          rw [hopen]
          refine forall₂_congr fun c hc => and_iff_right ?_
          rintro rfl
          cases hc
        have hended : (ended (split isBlank [] g).2).length = 0 ↔ (split isBlank [] g).2 = [] := by
          rw [ended]
          cases (split isBlank [] g).2 <;> simp
        have halternate : alternate true (g :: g' :: gs) = g :: alternate false (g' :: gs) := rfl
        have hopens : OpensApart true (g :: g' :: gs) ↔
            (∀ c ∈ g.getLast?, isBlank c = true) ∧ OpensApart false (g' :: gs) := Iff.rfl
        rw [halternate, hopens, emitted, List.flatMap_cons, ← hsplit, ← hapart, ← hended, ← hiff]
        simp only [List.length_append]
        omega

/-- Where no quote opens behind a word, words come to the lists that they belong to. -/
theorem emitted_of_opensApart (segs : List (List UInt8)) : ∀ out : Bool, OpensApart out segs →
    emitted out [] segs = (alternate out segs).flatMap (words isBlank) ∧
      stretches out [] segs = (alternate (!out) segs).map (words isBlank) := by
  induction segs with
  | nil => exact fun out _ => by cases out <;> exact ⟨rfl, rfl⟩
  | cons g gs ih =>
    intro out h
    cases gs with
    | nil => cases out <;> simp [emitted, stretches, alternate]
    | cons g' gs =>
      cases out with
      | false =>
        obtain ⟨hemitted, hstretches⟩ := ih true h
        exact ⟨hemitted, congrArg (words isBlank g :: ·) hstretches⟩
      | true =>
        obtain ⟨hemitted, hstretches⟩ := ih false h.2
        have hsplit := @split_eq_words isBlank g [] (by simp)
        have hopen := @split_snd_eq_nil_iff isBlank g []
        rw [List.nil_append] at hsplit hopen
        have hnil : (split isBlank [] g).2 = [] := by
          rw [hopen]
          intro c hc
          refine ⟨?_, h.1 c hc⟩
          rintro rfl
          cases hc
        rw [hnil] at hsplit
        rw [emitted, stretches, hnil, hemitted, hstretches]
        refine ⟨?_, rfl⟩
        have halternate : alternate true (g :: g' :: gs) = g :: alternate false (g' :: gs) := rfl
        rw [halternate, List.flatMap_cons, ← hsplit]
        simp [ended]

end Google

/-! ### Without it -/

section NoSyntax

/-- A list that a quote has made stays. -/
theorem orderListList_ne_nil (s : List UInt8) : ∀ v : Locals, v.lists.orderListList ≠ [] →
    (finish false v s).orderListList ≠ [] := by
  have hemit : ∀ (w : List UInt8) (q : QuoteState) (m : Lists),
      (emitToken w false q m).orderListList = m.orderListList := by
    intro w q m
    unfold emitToken
    split <;> rfl
  induction s with
  | nil =>
    intro v hv
    rw [finish]
    dsimp only [List.foldl_nil]
    rw [hemit]
    exact hv
  | cons c s ih =>
    intro v hv
    refine ih (step false v c) ?_
    obtain ⟨lists, quoteState, state, token⟩ := v
    unfold step
    split
    · cases quoteState
      · exact List.append_ne_nil_of_right_ne_nil _ (List.cons_ne_nil _ _)
      · dsimp only
        rw [hemit]
        exact hv
    · split
      · cases state
        · exact hv
        · dsimp only
          rw [hemit]
          exact hv
      · exact hv

theorem process_free {s : List UInt8} (hs : 34 ∉ s) :
    process false s = [unordered (words isBlank s)] := by
  obtain ⟨state, hfold, -⟩ := foldl_step_free (b := false) hs
    ⟨⟨[], []⟩, .noQuote, .outOfToken, []⟩ fun _ => rfl
  rw [process, hfold]
  dsimp only
  rw [emitAll_split (by simp), emitAll_unordered (fun h => by cases h) (words_ne_nil _)]
  simp

theorem length_process_of_mem {s : List UInt8} (hs : (34 : UInt8) ∈ s) :
    1 < (process false s).length := by
  obtain ⟨g, rest, rfl, hg⟩ := List.eq_append_cons_of_mem hs
  obtain ⟨state, hfold, -⟩ := foldl_step_free (b := false) hg
    ⟨⟨[], []⟩, .noQuote, .outOfToken, []⟩ fun _ => rfl
  have hlists : ∃ v : Locals, v.lists.orderListList ≠ [] ∧
      finish false ⟨⟨[], []⟩, .noQuote, .outOfToken, []⟩ (g ++ 34 :: rest) = finish false v rest := by
    refine ⟨step false ⟨emitAll (split isBlank [] g).1 false .noQuote ⟨[], []⟩, .noQuote, state,
      (split isBlank [] g).2⟩ 34, ?_, ?_⟩
    · exact List.append_ne_nil_of_right_ne_nil _ (List.cons_ne_nil _ _)
    · rw [finish, List.foldl_append, hfold, List.foldl_cons]
      rfl
  obtain ⟨v, hv, hfinish⟩ := hlists
  change 1 < ((finish false ⟨⟨[], []⟩, .noQuote, .outOfToken, []⟩ (g ++ 34 :: rest)).noOrderList ::
    (finish false ⟨⟨[], []⟩, .noQuote, .outOfToken, []⟩ (g ++ 34 :: rest)).orderListList).length
  rw [hfinish, List.length_cons]
  have hpos := List.length_pos_iff.mpr (orderListList_ne_nil rest v hv)
  omega

end NoSyntax

theorem unordered_injective {ws ws' : List (List UInt8)} (h : unordered ws = unordered ws') :
    ws = ws' := by
  refine List.map_injective_iff.mpr (fun w w' hww' => ?_) h
  exact congrArg Prod.fst hww'

/-- **The tokenizer returns what it should** exactly where no quote opens directly behind a word
or, without the syntax, where there are no quotes. -/
theorem process_eq_iff (bUseGoogleSyntax : Bool) (termString : List UInt8) :
    process bUseGoogleSyntax termString = documented bUseGoogleSyntax termString ↔
      Separated bUseGoogleSyntax termString := by
  cases bUseGoogleSyntax with
  | true =>
    rw [process_google]
    have hlength := (length_emitted (segments termString) true [] fun _ => rfl).2
    constructor
    · intro h
      refine hlength.mp ?_
      rw [unordered_injective (List.cons_eq_cons.mp h).1]
      rfl
    · intro h
      obtain ⟨hemitted, hstretches⟩ := emitted_of_opensApart (segments termString) true h
      rw [hemitted, hstretches, List.map_map]
      rfl
  | false =>
    constructor
    · intro h hmem
      have hlength := length_process_of_mem hmem
      rw [h] at hlength
      exact absurd hlength (by simp [documented])
    · intro h
      rw [process_free h, documented, if_neg Bool.false_ne_true, segments_of_free h]
      simp

/-- A phrase directly behind a word: the word comes into the phrase. -/
theorem wordBeforeQuote_not_documented :
    process true [97, 34, 98, 34] ≠ documented true [97, 34, 98, 34] := by
  decide

end FTS3Tokenizer

/-! ## 3. The other search engines -/

namespace HarvestFTS

open SearchString

/-- `" \t\n\r\v"`. -/
def isSpace (c : UInt8) : Bool := c == 32 || c == 9 || c == 10 || c == 13 || c == 11

/-- `strip`. -/
def strip (s : List UInt8) : List UInt8 := (s.dropWhile isSpace).rdropWhile isSpace

/-- What follows the first piece begins with a separator. -/
theorem length_dropWhile_lt {isSep : UInt8 → Bool} {s : List UInt8}
    (h : ¬(s.dropWhile fun c => !isSep c).all isSep = true) :
    ((s.dropWhile fun c => !isSep c).dropWhile isSep).length < s.length := by
  have hlen := (List.dropWhile_sublist (l := s) fun c => !isSep c).length_le
  have hhead := List.head?_dropWhile_not (fun c => !isSep c) s
  cases hdrop : s.dropWhile fun c => !isSep c with
  | nil => simp [hdrop] at h
  | cons d rest =>
    rw [hdrop] at hlen hhead
    have hd : isSep d = true := by simpa using hhead
    have hrest := (List.dropWhile_sublist (l := rest) isSep).length_le
    rw [List.length_cons] at hlen
    rw [List.dropWhile_cons_of_pos hd]
    omega

/-- The pieces from one that begins here on, in `split_string`; separators at the end are followed
by an empty piece. -/
def splitFrom (isSep : UInt8 → Bool) (s : List UInt8) : List (List UInt8) :=
  let piece := s.takeWhile fun c => !isSep c
  if _h : (s.dropWhile fun c => !isSep c).all isSep then
    if (s.dropWhile fun c => !isSep c).isEmpty then [piece] else [piece, []]
  else piece :: splitFrom isSep ((s.dropWhile fun c => !isSep c).dropWhile isSep)
  termination_by s.length
  decreasing_by exact length_dropWhile_lt _h

/-- `split_string`. -/
def splitString (isSep : UInt8 → Bool) (s : List UInt8) : List (List UInt8) :=
  if s.all isSep then [[]]
  else if (s.head?.any isSep) then [] :: splitFrom isSep (s.dropWhile isSep)
  else splitFrom isSep s

/-- What becomes of one word in `harvestFTSTokenize`. -/
def filterToken (filter : Option (StringFilter UInt8)) (tokenCandidate : List UInt8) :
    Option (List UInt8) :=
  match filter with
  | none => some tokenCandidate
  | some process =>
    if (process tokenCandidate).2 && !(process tokenCandidate).1.isEmpty then
      some (process tokenCandidate).1
    else none

/-- `harvestFTSTokenize`. -/
def harvestFTSTokenize (filter : Option (StringFilter UInt8)) (inputString : List UInt8) :
    List (List UInt8) :=
  (splitString isSpace (strip inputString)).filterMap (filterToken filter)

/-- `token_chain_list` and `index_of_back`. -/
structure Chains where
  tokenChainList : List (List UInt8)
  indexOfBack : Int

/-- Before the loop of `harvestFTSGoogleTokenize`. -/
def Chains.start (s : List UInt8) : Chains := if s.head?.any (· != 34) then ⟨[[]], 0⟩ else ⟨[], -1⟩

/-- The body of the loop; an access out of bounds is `none`.  `bInQuotes` is not looked at. -/
def Chains.step (v : Chains) (c : UInt8) : Option Chains :=
  if c = 34 then some ⟨v.tokenChainList ++ [[]], v.indexOfBack + 1⟩
  else if 0 ≤ v.indexOfBack ∧ v.indexOfBack < v.tokenChainList.length then
    some ⟨v.tokenChainList.modify v.indexOfBack.toNat (· ++ [c]), v.indexOfBack⟩
  else none

/-- `harvestFTSGoogleTokenize`. -/
def harvestFTSGoogleTokenize (filter : Option (StringFilter UInt8)) (inputString : List UInt8) :
    Option (List (List (List UInt8))) :=
  if 34 ∉ inputString then some [harvestFTSTokenize filter inputString]
  else
    (inputString.foldlM Chains.step (Chains.start inputString)).map fun v =>
      v.tokenChainList.filterMap fun chain =>
        let curInputString := strip chain
        if curInputString.isEmpty then none else some (harvestFTSTokenize filter curInputString)

/-- `harvestFTS_with_version`, for what is the same in all its calls here: what it returns, and
what becomes of the last argument. -/
abbrev Harvest := List (List UInt8) → Int → Bool → BookcaseHitList → Bool × BookcaseHitList

/-- The hit lists of all token lists, or `none` where a call returns `false`. -/
def harvestAll (harvest : Harvest) :
    List (List (List UInt8)) → Option (List BookcaseHitList)
  | [] => some []
  | tokenList :: rest =>
    if (harvest tokenList 1 false .new).1 then
      (harvestAll harvest rest).map ((harvest tokenList 1 false .new).2 :: ·)
    else none

/-- The loop that combines the hit lists; each is taken with the token list before its own. -/
def combine (largestProximity : Int) (result : BookcaseHitList)
    (others : List (List (List UInt8) × BookcaseHitList)) : BookcaseHitList :=
  others.foldl (fun result other =>
    result.removeThoseNotPresentInOther other.2 largestProximity
      (largestProximity + other.1.length - 1)) result

/-- `harvestFTSGoogle_with_version`; taking the first element of an empty list is `none`. -/
def harvestFTSGoogleWithVersion (harvest : Harvest) (largestProximity : Int)
    (filter : Option (StringFilter UInt8)) (bReduceToSingleHitsWithinBookcases : Bool)
    (query : List UInt8) (result : BookcaseHitList) : Option (Bool × BookcaseHitList) := do
  match ← harvestFTSGoogleTokenize filter query with
  | [tokenList] =>
    some (harvest tokenList (if 34 ∉ query then largestProximity else 1)
      bReduceToSingleHitsWithinBookcases result)
  | tokenListList =>
    match harvestAll harvest tokenListList with
    | none => some (false, result)
    | some bookcaseHitListList =>
      let first ← bookcaseHitListList.head?
      let result := combine largestProximity first (tokenListList.zip bookcaseHitListList.tail)
      if bReduceToSingleHitsWithinBookcases then
        result.removeAllButFirstHitInEachBookcase.map fun result => (true, result)
      else some (true, result)

/-- There is something else than white space. -/
def IsOther (s : List UInt8) : Prop := ∃ c ∈ s, isSpace c = false

instance (s : List UInt8) : Decidable (IsOther s) := inferInstanceAs (Decidable (∃ c ∈ s, _))

section Strip

theorem rdropWhile_cons {p : UInt8 → Bool} {c : UInt8} (hc : p c = false) (s : List UInt8) :
    (c :: s).rdropWhile p = c :: s.rdropWhile p := by
  induction s using List.reverseRecOn with
  | nil => simp [hc]
  | append_singleton s d ih =>
    have happend : c :: (s ++ [d]) = (c :: s) ++ [d] := rfl
    cases hd : p d with
    | true => rw [happend, List.rdropWhile_concat_pos _ _ _ hd, ih,
        List.rdropWhile_concat_pos _ _ _ hd]
    | false => rw [happend, List.rdropWhile_concat_neg _ _ _ (by simp [hd]),
        List.rdropWhile_concat_neg _ _ _ (by simp [hd]), happend]

/-- Stripping leaves nothing, or a text between two bytes that are not white space. -/
theorem strip_cases (s : List UInt8) : (¬IsOther s ∧ strip s = []) ∨
    ∃ c rest, IsOther s ∧ isSpace c = false ∧ s.dropWhile isSpace = c :: rest ∧
      strip s = c :: rest.rdropWhile isSpace := by
  cases hdrop : s.dropWhile isSpace with
  | nil =>
    refine Or.inl ⟨?_, by rw [strip, hdrop, List.rdropWhile_nil]⟩
    rintro ⟨c, hc, hother⟩
    have hall := List.dropWhile_eq_nil_iff.mp hdrop c hc
    rw [hother] at hall
    cases hall
  | cons c rest =>
    have hc : isSpace c = false := by
      have h := List.head?_dropWhile_not isSpace s
      rw [hdrop] at h
      simpa using h
    have hmem : c ∈ s := (List.dropWhile_sublist isSpace).subset (hdrop ▸ List.mem_cons_self)
    exact Or.inr ⟨c, rest, ⟨c, hmem, hc⟩, hc, rfl, by rw [strip, hdrop, rdropWhile_cons hc]⟩

theorem isEmpty_strip (s : List UInt8) : (strip s).isEmpty = true ↔ ¬IsOther s := by
  rcases strip_cases s with ⟨hnot, h⟩ | ⟨c, rest, hother, -, -, h⟩
  · simp [h, hnot]
  · simp [h, hother]

theorem strip_strip (s : List UInt8) : strip (strip s) = strip s := by
  rcases strip_cases s with ⟨-, h⟩ | ⟨c, rest, -, hc, -, h⟩
  · rw [h]
    rfl
  · rw [h, strip, List.dropWhile_cons_of_neg (by simp [hc]), rdropWhile_cons hc,
      List.rdropWhile_idempotent]

theorem harvestFTSTokenize_strip (filter : Option (StringFilter UInt8)) (s : List UInt8) :
    harvestFTSTokenize filter (strip s) = harvestFTSTokenize filter s := by
  rw [harvestFTSTokenize, strip_strip, harvestFTSTokenize]

end Strip

section Words

variable {isSep : UInt8 → Bool}

theorem words_cons_sep {d : UInt8} (hd : isSep d = true) (s : List UInt8) :
    words isSep (d :: s) = words isSep s := by
  have hnone : ∀ x ∈ ([] : List UInt8), isSep x = false := by simp
  have h := List.splitOnP_append_cons_of_forall_mem hnone d hd s
  rw [List.nil_append] at h
  rw [words, h, List.filter_cons_of_neg (by simp), words]

theorem words_dropWhile (s : List UInt8) : words isSep (s.dropWhile isSep) = words isSep s := by
  induction s with
  | nil => rfl
  | cons c s ih =>
    cases hc : isSep c with
    | true => rw [List.dropWhile_cons_of_pos hc, ih, words_cons_sep hc]
    | false => rw [List.dropWhile_cons_of_neg (by simp [hc])]

/-- The pieces of a text that does not end with a separator are its words. -/
theorem splitFrom_eq_words (s : List UInt8) (hhead : ∃ c ∈ s.head?, isSep c = false)
    (hlast : ∀ c ∈ s.getLast?, isSep c = false) : splitFrom isSep s = words isSep s := by
  fun_induction splitFrom isSep s with
  | case1 s piece hall hempty =>
    have hfree : ∀ c ∈ s, isSep c = false := by
      intro c hc
      simpa using List.dropWhile_eq_nil_iff.mp (List.isEmpty_iff.mp hempty) c hc
    have htake : piece = s := List.takeWhile_eq_self_iff.mpr fun c hc => by simp [hfree c hc]
    obtain ⟨c, hc, -⟩ := hhead
    rw [htake, words, List.splitOnP_eq_singleton hfree]
    cases s with
    | nil => cases hc
    | cons d s => rfl
  | case2 s piece hall hempty =>
    -- The text would end with a separator.
    exfalso
    obtain ⟨d, hd⟩ : ∃ d, (s.dropWhile fun c => !isSep c).getLast? = some d :=
      ⟨_, List.getLast?_eq_some_getLast fun hnil => hempty (List.isEmpty_iff.mpr hnil)⟩
    have hsplit := List.takeWhile_append_dropWhile (p := fun c => !isSep c) (l := s)
    have hlastS : s.getLast? = some d := by
      rw [← hsplit, List.getLast?_append, hd]
      rfl
    have hsep := List.all_eq_true.mp hall d (List.mem_of_getLast? hd)
    rw [hlast d hlastS] at hsep
    cases hsep
  | case3 s piece hall ih =>
    have hsplit := List.takeWhile_append_dropWhile (p := fun c => !isSep c) (l := s)
    have hheadRest := List.head?_dropWhile_not (fun c => !isSep c) s
    obtain ⟨d, rest, hdrop⟩ : ∃ d rest, s.dropWhile (fun c => !isSep c) = d :: rest := by
      cases hdrop : s.dropWhile fun c => !isSep c with
      | nil => simp [hdrop] at hall
      | cons d rest => exact ⟨d, rest, rfl⟩
    rw [hdrop] at hheadRest hall ih hsplit
    have hd : isSep d = true := by simpa using hheadRest
    have hfree : ∀ c ∈ piece, isSep c = false := fun c hc => by
      simpa using List.mem_takeWhile_imp hc
    have hpiece : piece ≠ [] := by
      rintro hnil
      have hnil' : s.takeWhile (fun c => !isSep c) = [] := hnil
      obtain ⟨c, hc, hsep⟩ := hhead
      rw [hnil', List.nil_append] at hsplit
      rw [← hsplit] at hc
      cases hc
      rw [hd] at hsep
      cases hsep
    -- What comes next begins with a word and ends as the text does.
    have hnext := List.takeWhile_append_dropWhile (p := isSep) (l := d :: rest)
    obtain ⟨e, next, hnextEq⟩ : ∃ e next, (d :: rest).dropWhile isSep = e :: next := by
      cases hcase : (d :: rest).dropWhile isSep with
      | nil =>
        refine absurd (List.all_eq_true.mpr fun c hc => ?_) hall
        exact List.dropWhile_eq_nil_iff.mp hcase c hc
      | cons e next => exact ⟨e, next, rfl⟩
    have hwords : words isSep s = piece :: words isSep ((d :: rest).dropWhile isSep) := by
      have hs : s = piece ++ d :: rest := hsplit.symm
      rw [words_dropWhile, words_cons_sep hd, words, hs,
        List.splitOnP_append_cons_of_forall_mem hfree d hd, List.filter_cons_of_pos (by simpa), words]
    rw [hwords, hdrop, ih]
    · have hnot := List.head?_dropWhile_not isSep (d :: rest)
      rw [hnextEq] at hnot ⊢
      exact ⟨e, rfl, by simpa using hnot⟩
    · intro c hc
      refine hlast c ?_
      rw [← hsplit, ← hnext, List.getLast?_append, List.getLast?_append, Option.mem_def.mp hc]
      rfl

theorem words_strip (s : List UInt8) : words isSpace (strip s) = words isSpace s := by
  have hright : ∀ s : List UInt8, words isSpace (s.rdropWhile isSpace) = words isSpace s := by
    intro s
    induction s using List.reverseRecOn with
    | nil => rfl
    | append_singleton s c ih =>
      cases hc : isSpace c with
      | true =>
        have hcut : (s ++ [c]).splitOnP isSpace = s.splitOnP isSpace ++ [[]] := by
          rw [List.splitOnP_append_cons s [] hc, List.splitOnP_nil]
        rw [List.rdropWhile_concat_pos _ _ _ hc, ih, words, words, hcut]
        simp
      | false => rw [List.rdropWhile_concat_neg _ _ _ (by simp [hc])]
  rw [strip, hright, words_dropWhile]

/-- **The tokens of a text that is not blank** are its words. -/
theorem harvestFTSTokenize_eq_words (filter : Option (StringFilter UInt8)) {s : List UInt8}
    (h : IsOther s) :
    harvestFTSTokenize filter s = (words isSpace s).filterMap (filterToken filter) := by
  rcases strip_cases s with ⟨hnot, -⟩ | ⟨c, rest, -, hc, -, hstrip⟩
  · exact absurd h hnot
  · have hlast : ∀ d ∈ (strip s).getLast?, isSpace d = false := by
      intro d hd
      have hne : strip s ≠ [] := by
        rw [hstrip]
        exact List.cons_ne_nil _ _
      have hnot := List.rdropWhile_last_not isSpace (s.dropWhile isSpace) hne
      rw [List.getLast?_eq_some_getLast hne] at hd
      cases hd
      exact Bool.eq_false_of_not_eq_true hnot
    have hall : ¬(strip s).all isSpace = true := by simp [hstrip, hc]
    have hhead : ¬(strip s).head?.any isSpace = true := by simp [hstrip, hc]
    rw [harvestFTSTokenize, splitString, if_neg hall, if_neg hhead,
      splitFrom_eq_words (strip s) ⟨c, by simp [hstrip], hc⟩ hlast, words_strip]

end Words

/-! ### The segments -/

/-- The token lists of the segments that are not blank. -/
def segmentTokens (filter : Option (StringFilter UInt8)) (s : List UInt8) : List (List (List UInt8)) :=
  ((segments s).filter fun g => decide (IsOther g)).map (harvestFTSTokenize filter)

section Segments

variable {filter : Option (StringFilter UInt8)}

/-- The loop, from a chain that is being read on. -/
theorem foldlM_step (s : List UInt8) : ∀ (pre : List (List UInt8)) (g : List UInt8),
    ∃ index, s.foldlM Chains.step ⟨pre ++ [g], pre.length⟩ =
      some ⟨pre ++ (segments s).modifyHead (g ++ ·), index⟩ := by
  induction s with
  | nil => exact fun pre g => ⟨pre.length, by simp [segments]⟩
  | cons c s ih =>
    intro pre g
    obtain ⟨g', gs, hgs⟩ := FTS3Tokenizer.exists_segments s
    by_cases hc : c = 34
    · subst hc
      obtain ⟨index, hfold⟩ := ih (pre ++ [g]) []
      have hstep : Chains.step ⟨pre ++ [g], pre.length⟩ 34 =
          some ⟨pre ++ [g] ++ [[]], (pre ++ [g]).length⟩ := by
        rw [Chains.step, if_pos rfl]
        simp
      have hsegments : segments (34 :: s) = [] :: segments s := segments_append (g := []) (by simp) s
      refine ⟨index, ?_⟩
      rw [List.foldlM_cons, hstep]
      refine hfold.trans ?_
      rw [hsegments, hgs]
      simp
    · obtain ⟨index, hfold⟩ := ih pre (g ++ [c])
      have hstep : Chains.step ⟨pre ++ [g], pre.length⟩ c =
          some ⟨pre ++ [g ++ [c]], pre.length⟩ := by
        rw [Chains.step, if_neg hc, if_pos (by simp)]
        simp [List.modify_eq_take_cons_drop]
      have hsegments : segments (c :: s) = (segments s).modifyHead (List.cons c) := by
        rw [segments, List.splitOnP_cons_eq_if_modifyHead, if_neg (by simpa using hc), segments]
      refine ⟨index, ?_⟩
      rw [List.foldlM_cons, hstep]
      refine hfold.trans ?_
      rw [hsegments, hgs]
      simp

/-- What becomes of the chains. -/
theorem filterMap_chains (chains : List (List UInt8)) :
    (chains.filterMap fun chain =>
      let curInputString := strip chain
      if curInputString.isEmpty then none else some (harvestFTSTokenize filter curInputString)) =
    (chains.filter fun g => decide (IsOther g)).map (harvestFTSTokenize filter) := by
  induction chains with
  | nil => rfl
  | cons g chains ih =>
    rw [List.filterMap_cons, ih, List.filter_cons]
    by_cases hg : IsOther g
    · have hne : ¬(strip g).isEmpty = true := fun h => (isEmpty_strip g).mp h hg
      simp only [if_neg hne, harvestFTSTokenize_strip]
      simp [hg]
    · simp [(isEmpty_strip g).mpr hg, hg]

/-- **The segments are found**, and no access is out of bounds. -/
theorem harvestFTSGoogleTokenize_eq (s : List UInt8) :
    harvestFTSGoogleTokenize filter s =
      some (if 34 ∉ s then [harvestFTSTokenize filter s] else segmentTokens filter s) := by
  rw [harvestFTSGoogleTokenize]
  split
  · rfl
  · rename_i hs
    obtain ⟨c, rest, rfl⟩ : ∃ c rest, s = c :: rest := by
      cases s with
      | nil => exact absurd (by simp) hs
      | cons c rest => exact ⟨c, rest, rfl⟩
    by_cases hc : c = 34
    · subst hc
      obtain ⟨index, hfold⟩ := foldlM_step rest [] []
      obtain ⟨g', gs, hgs⟩ := FTS3Tokenizer.exists_segments rest
      have hsegments : segments (34 :: rest) = [] :: segments rest :=
        segments_append (g := []) (by simp) rest
      have hblank : ¬IsOther [] := by simp [IsOther]
      have hstart : Chains.start (34 :: rest) = ⟨[], -1⟩ := rfl
      have hstep : Chains.step ⟨[], -1⟩ 34 = some ⟨[] ++ [[]], ([] : List (List UInt8)).length⟩ := rfl
      rw [hstart, List.foldlM_cons, hstep]
      dsimp only [Option.bind_eq_bind, Option.bind_some]
      rw [hfold, Option.map_some, filterMap_chains, segmentTokens, hsegments, hgs]
      simp [hblank]
    · have hstart : Chains.start (c :: rest) = ⟨[] ++ [[]], ([] : List (List UInt8)).length⟩ := by
        simp [Chains.start, hc]
      obtain ⟨index, hfold⟩ := foldlM_step (c :: rest) [] []
      obtain ⟨g', gs, hgs⟩ := FTS3Tokenizer.exists_segments (c :: rest)
      rw [hstart, hfold, Option.map_some, filterMap_chains, segmentTokens, hgs]
      simp

end Segments

/-! ### The search -/

/-- What a search should do: it finds the segments, it returns, and where no segment remains there
are no hits. -/
structure SearchesSafely (harvest : Harvest) (largestProximity : Int)
    (filter : Option (StringFilter UInt8)) (bReduceToSingleHitsWithinBookcases : Bool)
    (query : List UInt8) (result : BookcaseHitList) : Prop where
  tokenLists : harvestFTSGoogleTokenize filter query =
    some (if 34 ∉ query then [harvestFTSTokenize filter query] else segmentTokens filter query)
  returns : (harvestFTSGoogleWithVersion harvest largestProximity filter
    bReduceToSingleHitsWithinBookcases query result).isSome = true
  empty : harvestFTSGoogleTokenize filter query = some [] → ∃ found,
    harvestFTSGoogleWithVersion harvest largestProximity filter
      bReduceToSingleHitsWithinBookcases query result = some (true, found) ∧
        ∀ hit, ¬found.Holds hit

section Search

variable {harvest : Harvest}

theorem length_harvestAll : ∀ {lists : List (List (List UInt8))} {hitLists : List BookcaseHitList},
    harvestAll harvest lists = some hitLists → hitLists.length = lists.length
  | [], hitLists, h => by
    cases h
    rfl
  | tokenList :: rest, hitLists, h => by
    rw [harvestAll] at h
    split at h
    · obtain ⟨hits, hhits, rfl⟩ := Option.map_eq_some_iff.mp h
      simp [length_harvestAll hhits]
    · cases h

/-- Lists that are combined have no bookcase without hits. -/
theorem noneEmpty_combine (largestProximity : Int)
    (others : List (List (List UInt8) × BookcaseHitList)) (hothers : others ≠ [])
    (result : BookcaseHitList) : (combine largestProximity result others).NoneEmpty := by
  induction others using List.reverseRecOn with
  | nil => exact absurd rfl hothers
  | append_singleton others other _ =>
    rw [combine, List.foldl_append, List.foldl_cons, List.foldl_nil,
      BookcaseHitList.removeThoseNotPresentInOther_eq]
    exact BookcaseHitList.noneEmpty_addHits BookcaseHitList.noneEmpty_new _

/-- **A search is safe** exactly where the query has no double quote, or a segment that is not
blank. -/
theorem searchesSafely_iff (harvest : Harvest) (largestProximity : Int)
    (filter : Option (StringFilter UInt8)) (bReduceToSingleHitsWithinBookcases : Bool)
    (query : List UInt8) (result : BookcaseHitList) :
    SearchesSafely harvest largestProximity filter bReduceToSingleHitsWithinBookcases query
      result ↔ 34 ∉ query ∨ ∃ g ∈ segments query, IsOther g := by
  have htokens := @harvestFTSGoogleTokenize_eq filter query
  have hremain : (if 34 ∉ query then [harvestFTSTokenize filter query]
      else segmentTokens filter query) = [] ↔ ¬(34 ∉ query ∨ ∃ g ∈ segments query, IsOther g) := by
    split
    · rename_i hquote
      simp [hquote]
    · rename_i hquote
      simp [segmentTokens, hquote]
  generalize hlists : (if 34 ∉ query then [harvestFTSTokenize filter query]
      else segmentTokens filter query) = lists at htokens hremain
  constructor
  · intro hsafe
    by_contra hnone
    have hreturns := hsafe.returns
    rw [harvestFTSGoogleWithVersion, htokens, hremain.mpr hnone] at hreturns
    cases hreturns
  · intro hsome
    have hne : lists ≠ [] := fun hnil => hremain.mp hnil hsome
    refine ⟨by rw [htokens, hlists], ?_, fun hempty => ?_⟩
    · rw [harvestFTSGoogleWithVersion, htokens, Option.bind_eq_bind, Option.bind_some]
      obtain ⟨first, rest, rfl⟩ := List.exists_cons_of_ne_nil hne
      cases rest with
      | nil => rfl
      | cons second rest =>
        cases hall : harvestAll harvest (first :: second :: rest) with
        | none => simp only [hall, Option.isSome_some]
        | some hitLists =>
          have hlength := length_harvestAll hall
          obtain ⟨hits, others, rfl⟩ := List.exists_cons_of_length_pos (l := hitLists) (by
            rw [hlength]
            exact Nat.succ_pos _)
          have hothers : (first :: second :: rest).zip others ≠ [] := by
            obtain ⟨hits', others', rfl⟩ := List.exists_cons_of_length_pos (l := others) (by
              simp only [List.length_cons] at hlength
              omega)
            exact List.cons_ne_nil _ _
          simp only [hall, List.head?_cons, List.tail_cons, Option.bind_eq_bind, Option.bind_some]
          split
          · rw [BookcaseHitList.removeAllButFirstHitInEachBookcase_eq
              (noneEmpty_combine largestProximity _ hothers hits)]
            rfl
          · rfl
    · rw [htokens] at hempty
      exact absurd (Option.some.inj hempty) hne

/-- The query of two double quotes: there is no first hit list to take. -/
theorem quotesOnly_not_searchesSafely :
    ¬SearchesSafely (fun _ _ _ result => (true, result)) 5 none false [34, 34] .new := by
  intro hsafe
  have hreturns := hsafe.returns
  revert hreturns
  decide

end Search

end HarvestFTS

end Emdros
