/-
# Reading a document into MiniDOM (`QDParser::parse` with `MiniDOMDocHandler`)

The reader counts the elements that are open, the handler has pointers to them, and neither looks at
what the other knows.

`round_spec` is what one round reads, `step_cases` what it can do to the reader, so that the count
is that of the handler's elements (`step_counts`).  An end tag meets a null pointer only where the
reader has counted none, before the first start tag.  All other inputs are read into a document or
refused with an exception (`parses_iff`).
-/
import Mathlib.Logic.Relation
import Emdros.EMdF.MiniDOMDocHandler
import Emdros.EMdF.QDXmlInput

namespace Emdros.MiniDOM

open Lexer (bytes)
open scoped QDParser

/-! ## 1. The reader with the handler -/

/-- The calls that a round makes; in every state they come before anything that can fail. -/
def callsOf (p : QDParser) (c : UInt8) : List QDCall :=
  match p.state with
  | .text => if c = 60 ∧ p.text ≠ [] then [.text p.text] else []
  | .openTag | .inTag => if c = 62 then [.startElement p.tagName p.attributes] else []
  | .singleTag =>
    if c = 62 then [.startElement p.tagName p.attributes, .endElement p.tagName] else []
  | .closeTag => if c = 62 then [.endElement p.tagName] else []
  | .comment =>
    if c = 62 ∧ QDParser.stringEndsWith (p.text ++ [c]) (bytes "-->") then
      [.comment (p.text ++ [c])]
    else []
  | .cdata =>
    if c = 62 ∧ QDParser.stringEndsWith p.text (bytes "]]") then
      [.text (p.text.take (p.text.length - 2))]
    else []
  | _ => []

/-- What reading gives, and the input after it. -/
abbrev ReadM := StateT CharInput (ExceptT (List UInt8) Option)

def getNextChar (readSize : Nat → Nat) : ReadM UInt8 := fun s =>
  (CharInput.getNextChar readSize s).map .ok

/-- The next character has to be `c`. -/
def expectChar (readSize : Nat → Nat) (c : UInt8) (error : List UInt8) : ReadM Unit := do
  let next ← getNextChar readSize
  if next ≠ c then throw error

/-- One round of the loop of `parse`, without the calls. -/
def round (readSize : Nat → Nat) (p : QDParser) (c : UInt8) : ReadM QDParser :=
  match p.state with
  | .beforeXmlDeclaration =>
    if c = 60 then do
      expectChar readSize 63 (bytes "Document must start with <?; it does not.")
      expectChar readSize 120 (bytes "Document must start with '<?x'. It does not.")
      expectChar readSize 109 (bytes "Document must start with '<?xm'. It does not.")
      expectChar readSize 108 (bytes "Document must start with '<?xml'. It does not.")
      let next ← getNextChar readSize
      if !QDParser.myisspace next then
        throw (bytes "Document must start with '<?xml' + <whitespace>. It does not.")
      return { p with state := .inXmlDeclaration }
    else return p
  | .inXmlDeclaration =>
    if c = 63 then do
      expectChar readSize 62 (bytes "XML declaration must end with '?>'")
      return { p with encoding := QDParser.declaredEncoding p.attributes, state := .text }
    else if QDParser.myisspace c then return p
    else return QDParser.startAttribute p c
  | _ => fun s => some ((QDParser.step p c []).map fun r => (r.1, s))

/-- What comes of an input, with the calls that were made before. -/
inductive Result where
  | document (calls : List QDCall) (doc : Nat)
  | exception (calls : List QDCall) (text : List UInt8)

/-- The loop of `parse`; the first argument bounds the number of rounds. -/
def parseLoop (readSize : Nat → Nat) : Nat → QDParser → UInt8 → CharInput → MiniDOMDocHandler →
    HeapM MiniDOMNode Result
  | 0, _, _, _, _ => failure
  | fuel + 1, p, c, s, handler =>
    if s.hasMoreInput then
      if p.state = .done then return .document p.calls handler.doc
      else do
        match ← handler.handleCalls (callsOf p c) with
        | .error e => return .exception p.calls e
        | .ok handler =>
          match ← Partial.ofOption ((round readSize p c).run s) with
          | .error e => return .exception (p.calls ++ callsOf p c) e
          | .ok (p, s) =>
            let (c, s) ← Partial.ofOption (s.getNextChar readSize)
            parseLoop readSize fuel p c s handler
    else if p.state = .done then return .document p.calls handler.doc
    else return .exception p.calls (bytes "missing end tag")

/-- `MiniDOMParseStream`, with a document of the caller. -/
def parse (readSize : Nat → Nat) (fuel : Nat) (input : List UInt8) (doc : Nat) :
    HeapM MiniDOMNode Result := do
  let (c, s) ← Partial.ofOption ((CharInput.new input).getNextChar readSize)
  parseLoop readSize fuel QDParser.beginning c s ⟨[], doc, none⟩

/-! ## 2. What a round reads -/

section Reading

open CharInput (Coming)

variable {readSize : Nat → Nat} {s : CharInput} {rest : List UInt8}

/-- The round goes as `step` does on `rest`, and reads as many of its characters. -/
def RoundAs (x : ReadM QDParser) (s : CharInput) (rest : List UInt8)
    (r : Except (List UInt8) (QDParser × Nat)) : Prop :=
  (∀ e, r = .error e → x.run s = some (.error e)) ∧
    ∀ q n, r = .ok (q, n) → ∃ s', x.run s = some (.ok (q, s')) ∧ Coming s' (rest.drop n)

theorem roundAs_error {x : ReadM QDParser} {e : List UInt8} (h : x.run s = some (.error e)) :
    RoundAs x s rest (.error e) := by
  constructor
  · intro e' he
    cases he
    exact h
  · intro q n hok
    cases hok

theorem roundAs_ok {x : ReadM QDParser} {q : QDParser} {n : Nat} {s' : CharInput}
    (h : x.run s = some (.ok (q, s'))) (hs : Coming s' (rest.drop n)) :
    RoundAs x s rest (.ok (q, n)) := by
  constructor
  · intro e he
    cases he
  · intro q' n' hok
    cases hok
    exact ⟨s', h, hs⟩

theorem run_bind_ok {α β : Type} {x : ReadM α} {f : α → ReadM β} {a : α} {s' : CharInput}
    (h : x.run s = some (.ok (a, s'))) : (x >>= f).run s = (f a).run s' := by
  rw [StateT.run_bind]
  change ExceptT.bind (x.run s) _ = _
  rw [h]
  rfl

theorem run_bind_error {α β : Type} {x : ReadM α} {f : α → ReadM β} {e : List UInt8}
    (h : x.run s = some (.error e)) : (x >>= f).run s = some (.error e) := by
  rw [StateT.run_bind]
  change ExceptT.bind (x.run s) _ = _
  rw [h]
  rfl

theorem run_getNextChar {c : UInt8} {s' : CharInput}
    (h : s.getNextChar readSize = some (c, s')) :
    (getNextChar readSize).run s = some (.ok (c, s')) := by
  change (s.getNextChar readSize).map Except.ok = _
  rw [h]
  rfl

/-- A character that is expected is read, ... -/
theorem run_expectChar (hsize : ∀ n, 0 < readSize n) {c : UInt8} (h : Coming s (c :: rest))
    (error : List UInt8) :
    ∃ s', (expectChar readSize c error).run s = some (.ok ((), s')) ∧ Coming s' rest := by
  obtain ⟨s', hcall, hrest⟩ := CharInput.getNextChar_cons hsize h
  refine ⟨s', ?_, hrest⟩
  rw [expectChar, run_bind_ok (run_getNextChar hcall), if_neg (not_not_intro rfl)]
  rfl

theorem exists_getNextChar (hsize : ∀ n, 0 < readSize n) (h : Coming s rest) :
    ∃ s', s.getNextChar readSize = some (rest.headD 0, s') := by
  cases rest with
  | nil =>
    obtain ⟨s', hcall, -⟩ := CharInput.getNextChar_nil hsize h
    exact ⟨s', hcall⟩
  | cons d rest =>
    obtain ⟨s', hcall, -⟩ := CharInput.getNextChar_cons hsize h
    exact ⟨s', hcall⟩

/-- ...and any other one, or the end marker, is an error. -/
theorem run_expectChar_ne (hsize : ∀ n, 0 < readSize n) {c : UInt8} (h : Coming s rest)
    (hne : rest.headD 0 ≠ c) (error : List UInt8) :
    (expectChar readSize c error).run s = some (.error error) := by
  obtain ⟨s', hcall⟩ := exists_getNextChar hsize h
  rw [expectChar, run_bind_ok (run_getNextChar hcall), if_pos hne]
  rfl

theorem drop_eq_cons {k : Nat} (hk : rest.getD k 0 ≠ 0) :
    rest.drop k = rest.getD k 0 :: rest.drop (k + 1) := by
  have hlt : k < rest.length := by
    by_contra hge
    rw [List.getD_eq_default _ _ (Nat.le_of_not_lt hge)] at hk
    exact hk rfl
  rw [List.drop_eq_getElem_cons hlt, List.getD_eq_getElem _ _ hlt]

theorem headD_drop (k : Nat) : (rest.drop k).headD 0 = rest.getD k 0 := by
  rw [List.headD_eq_head?_getD, List.head?_drop, List.getD_eq_getElem?_getD]

/-- The character at `k` is compared next. -/
theorem roundAs_expectChar (hsize : ∀ n, 0 < readSize n) {c : UInt8} {k : Nat} {f : ReadM QDParser}
    {r : Except (List UInt8) (QDParser × Nat)} (error : List UInt8) (hc : c ≠ 0)
    (h : Coming s (rest.drop k)) (hf : ∀ s', Coming s' (rest.drop (k + 1)) → RoundAs f s' rest r) :
    RoundAs (expectChar readSize c error >>= fun _ => f) s rest
      (if rest.getD k 0 ≠ c then .error error else r) := by
  by_cases hne : rest.getD k 0 = c
  · rw [if_neg (not_not_intro hne)]
    rw [drop_eq_cons (by rw [hne]; exact hc), hne] at h
    obtain ⟨s', hrun, hs'⟩ := run_expectChar hsize h error
    have hround := hf s' hs'
    rw [RoundAs, run_bind_ok hrun]
    exact hround
  · rw [if_pos hne]
    exact roundAs_error (run_bind_error (run_expectChar_ne hsize h (by rwa [headD_drop]) error))

/-- The declaration has to begin as it should. -/
theorem beforeXmlDeclaration_spec (hsize : ∀ n, 0 < readSize n) (h : Coming s rest) {p : QDParser}
    (hstate : p.state = .beforeXmlDeclaration) (c : UInt8) :
    RoundAs (round readSize p c) s rest (QDParser.beforeXmlDeclarationState p c rest) := by
  rw [round, hstate, QDParser.beforeXmlDeclarationState]
  by_cases hc : c = 60
  · simp only [if_pos hc]
    refine roundAs_expectChar hsize _ (by decide) h fun s₁ h₁ => ?_
    refine roundAs_expectChar hsize _ (by decide) h₁ fun s₂ h₂ => ?_
    refine roundAs_expectChar hsize _ (by decide) h₂ fun s₃ h₃ => ?_
    refine roundAs_expectChar hsize _ (by decide) h₃ fun s₄ h₄ => ?_
    by_cases hspace : QDParser.myisspace (rest.getD 4 0) = true
    · have hne : rest.getD 4 0 ≠ 0 := by
        intro heq
        rw [heq] at hspace
        exact absurd hspace (by decide)
      rw [drop_eq_cons hne] at h₄
      obtain ⟨s₅, hcall, h₅⟩ := CharInput.getNextChar_cons hsize h₄
      simp only [hspace, Bool.not_true, Bool.false_eq_true, if_false]
      refine roundAs_ok ?_ h₅
      rw [run_bind_ok (run_getNextChar hcall), hspace]
      rfl
    · obtain ⟨s₅, hcall⟩ := exists_getNextChar hsize h₄
      rw [headD_drop] at hcall
      simp only [hspace, Bool.not_false, if_true]
      refine roundAs_error ?_
      rw [run_bind_ok (run_getNextChar hcall)]
      simp only [hspace, Bool.not_false, if_true]
      rfl
  · simp only [if_neg hc]
    exact roundAs_ok rfl h

/-- ...and to end as it should. -/
theorem inXmlDeclaration_spec (hsize : ∀ n, 0 < readSize n) (h : Coming s rest) {p : QDParser}
    (hstate : p.state = .inXmlDeclaration) (c : UInt8) :
    RoundAs (round readSize p c) s rest (QDParser.inXmlDeclarationState p c rest) := by
  rw [round, hstate, QDParser.inXmlDeclarationState]
  by_cases hc : c = 63
  · have hhead : rest.headD 0 = rest.getD 0 0 := headD_drop 0
    simp only [if_pos hc, hhead]
    exact roundAs_expectChar hsize _ (by decide) h fun s₁ h₁ => roundAs_ok rfl h₁
  · simp only [if_neg hc]
    by_cases hspace : QDParser.myisspace c = true
    · simp only [if_pos hspace]
      exact roundAs_ok rfl h
    · simp only [if_neg hspace]
      exact roundAs_ok rfl h

/-- In the other states only one character is looked at. -/
theorem step_eq {p : QDParser} (hbefore : p.state ≠ .beforeXmlDeclaration)
    (hin : p.state ≠ .inXmlDeclaration) (c : UInt8) (rest : List UInt8) :
    QDParser.step p c rest = (QDParser.step p c []).map fun r => (r.1, 0) := by
  have hone : ∀ x : Except (List UInt8) QDParser,
      x.map (fun q => (q, 0)) = (x.map fun q => (q, 0)).map fun r => (r.1, 0) := by
    intro x
    cases x <;> rfl
  rw [QDParser.step, QDParser.step]
  cases hstate : p.state with
  | beforeXmlDeclaration => exact absurd hstate hbefore
  | inXmlDeclaration => exact absurd hstate hin
  | text | attributeLvalue | done | openXmlDeclaration => rfl
  | _ => exact hone _

/-- **What a round reads.** -/
theorem round_spec (hsize : ∀ n, 0 < readSize n) (h : Coming s rest) (p : QDParser) (c : UInt8) :
    RoundAs (round readSize p c) s rest (QDParser.step p c rest) := by
  by_cases hbefore : p.state = .beforeXmlDeclaration
  · have hspec := beforeXmlDeclaration_spec hsize h hbefore c
    rw [QDParser.step, hbefore]
    exact hspec
  by_cases hin : p.state = .inXmlDeclaration
  · have hspec := inXmlDeclaration_spec hsize h hin c
    rw [QDParser.step, hin]
    exact hspec
  have hround : (round readSize p c).run s =
      some ((QDParser.step p c []).map fun r => (r.1, s)) := by
    rw [round]
    cases hstate : p.state with
    | beforeXmlDeclaration => exact absurd hstate hbefore
    | inXmlDeclaration => exact absurd hstate hin
    | _ => rfl
  rw [step_eq hbefore hin c rest]
  cases hstep : QDParser.step p c [] with
  | error e =>
    rw [hstep] at hround
    exact roundAs_error hround
  | ok r =>
    rw [hstep] at hround
    exact roundAs_ok hround h

end Reading

/-! ## 3. What a round does to the reader -/

open QDParser (step popState pushState startAttribute endStartTag stringEndsWith call textState
  quoteState attributeLvalueState attributeEqualState attributeRvalueState startTagState entityState
  commentState cdataState doctypeState beforeXmlDeclarationState inXmlDeclarationState openTagState
  inTagState singleTagState closeTagState)

/-- A round that opens no element and closes none. -/
structure Quiet (p q : QDParser) (c : UInt8) : Prop where
  calls : q.calls = p.calls ++ callsOf p c
  tags : ∀ tags, openTags tags (callsOf p c) = some tags
  depth : q.tagDepth = p.tagDepth
  done : .done ∉ p.stack → .done ∉ q.stack ∧ q.state ≠ .done

section Rounds

variable {p q : QDParser} {c : UInt8}

theorem popState_eq_ok (h : popState p = .ok q) :
    ∃ s stack, p.stack = s :: stack ∧ q = { p with state := s, stack := stack } := by
  unfold popState at h
  split at h
  · next s stack hstack =>
    cases h
    exact ⟨s, stack, hstack, rfl⟩
  · cases h

/-- What was pushed comes back. -/
theorem done_popState (h : popState p = .ok q) (hdone : .done ∉ p.stack) :
    .done ∉ q.stack ∧ q.state ≠ .done := by
  obtain ⟨s, stack, hstack, rfl⟩ := popState_eq_ok h
  rw [hstack, List.mem_cons, not_or] at hdone
  exact ⟨hdone.2, Ne.symm hdone.1⟩

theorem popState_frame (h : popState p = .ok q) : q.calls = p.calls ∧ q.tagDepth = p.tagDepth := by
  obtain ⟨s, stack, -, rfl⟩ := popState_eq_ok h
  exact ⟨rfl, rfl⟩

/-- Without a call, ... -/
theorem Quiet.silent (hno : callsOf p c = []) (hcalls : q.calls = p.calls)
    (hdepth : q.tagDepth = p.tagDepth)
    (hdone : .done ∉ p.stack → .done ∉ q.stack ∧ q.state ≠ .done) : Quiet p q c :=
  ⟨by rw [hno, hcalls, List.append_nil], fun tags => by rw [hno, openTags], hdepth, hdone⟩

/-- ...and at the end of a state that was pushed. -/
theorem Quiet.popState {p' : QDParser} (h : popState p' = .ok q) (hstack : p'.stack = p.stack)
    (hdepth : p'.tagDepth = p.tagDepth) (hcalls : p'.calls = p.calls ++ callsOf p c)
    (htags : ∀ tags, openTags tags (callsOf p c) = some tags) : Quiet p q c := by
  obtain ⟨hqcalls, hqdepth⟩ := popState_frame h
  exact ⟨hqcalls.trans hcalls, htags, hqdepth.trans hdepth, fun hdone =>
    done_popState h (by rwa [hstack])⟩

theorem quiet_text (hs : p.state = .text) : Quiet p (textState p c) c := by
  rw [textState]
  by_cases hamp : c = 38
  · subst hamp
    constructor <;> simp [callsOf, hs, openTags, pushState]
  · by_cases hlt : c = 60
    · subst hlt
      by_cases htext : p.text = []
      · constructor <;> simp [callsOf, hs, openTags, pushState, htext]
      · constructor <;> simp [callsOf, hs, openTags, pushState, htext, call]
    · constructor <;> simp [callsOf, hs, openTags, hamp, hlt]

theorem quiet_quote (hs : p.state = .quote) (h : quoteState p c = .ok q) : Quiet p q c := by
  have hno : callsOf p c = [] := by rw [callsOf, hs]
  rw [quoteState] at h
  split_ifs at h
  · cases h
    exact .silent hno rfl rfl fun hdone => ⟨hdone, by simp [hs]⟩
  · cases h
    exact .silent hno rfl rfl fun hdone => by simp [pushState, hdone]
  · exact .popState h rfl rfl (by simp [hno]) (by simp [hno, openTags])
  · cases h
    exact .silent hno rfl rfl fun hdone => ⟨hdone, by simp [hs]⟩

theorem quiet_attributeLvalue (hs : p.state = .attributeLvalue) :
    Quiet p (attributeLvalueState p c) c := by
  have hno : callsOf p c = [] := by rw [callsOf, hs]
  rw [attributeLvalueState]
  split_ifs <;> exact .silent hno rfl rfl fun hdone => ⟨hdone, by simp [hs]⟩

theorem quiet_attributeEqual (hs : p.state = .attributeEqual)
    (h : attributeEqualState p c = .ok q) : Quiet p q c := by
  have hno : callsOf p c = [] := by rw [callsOf, hs]
  rw [attributeEqualState] at h
  split_ifs at h
  · cases h
    exact .silent hno rfl rfl fun hdone => ⟨hdone, by simp⟩
  · cases h
    exact .silent hno rfl rfl fun hdone => ⟨hdone, by simp [hs]⟩
  · cases h

theorem quiet_attributeRvalue (hs : p.state = .attributeRvalue)
    (h : attributeRvalueState p c = .ok q) : Quiet p q c := by
  have hno : callsOf p c = [] := by rw [callsOf, hs]
  rw [attributeRvalueState] at h
  split_ifs at h
  · cases h
    exact .silent hno rfl rfl fun hdone => ⟨hdone, by simp⟩
  · cases h
    exact .silent hno rfl rfl fun hdone => ⟨hdone, by simp [hs]⟩
  · cases h

theorem exists_of_map_eq_ok {α β : Type} {x : Except (List UInt8) α} {f : α → β} {b : β}
    (h : x.map f = .ok b) : ∃ a, x = .ok a ∧ b = f a := by
  cases x with
  | error e => cases h
  | ok a =>
    cases h
    exact ⟨a, rfl, rfl⟩

theorem quiet_startTag (hs : p.state = .startTag) (h : startTagState p c = .ok q) :
    Quiet p q c := by
  have hno : callsOf p c = [] := by rw [callsOf, hs]
  obtain ⟨r, hr, rfl⟩ := exists_of_map_eq_ok h
  obtain ⟨hcalls, hdepth⟩ := popState_frame hr
  have hdone : .done ∉ p.stack → .done ∉ (r.pushState r.state).stack := by
    intro hdone
    obtain ⟨hstack, hstate⟩ := done_popState hr hdone
    simp [pushState, hstack, Ne.symm hstate]
  simp only
  split_ifs
  · exact .silent hno hcalls hdepth fun h => ⟨hdone h, by simp⟩
  · exact .silent hno hcalls hdepth fun h => ⟨hdone h, by simp⟩
  · exact .silent hno hcalls hdepth fun h => ⟨hdone h, by simp⟩

theorem quiet_entity (hs : p.state = .entity) (h : entityState p c = .ok q) : Quiet p q c := by
  have hno : callsOf p c = [] := by rw [callsOf, hs]
  rw [entityState] at h
  split_ifs at h
  · cases hpop : QDParser.popState p with
    | error e =>
      rw [hpop] at h
      cases h
    | ok r =>
      rw [hpop] at h
      obtain ⟨str, -, rfl⟩ := exists_of_map_eq_ok h
      obtain ⟨hcalls, hdepth⟩ := popState_frame hpop
      have hpopped := done_popState hpop
      split_ifs
      · exact .silent hno hcalls hdepth fun hdone => ⟨(hpopped hdone).1, (hpopped hdone).2⟩
      · exact .silent hno hcalls hdepth fun hdone => ⟨(hpopped hdone).1, (hpopped hdone).2⟩
  · cases h
    exact .silent hno rfl rfl fun hdone => ⟨hdone, by simp [hs]⟩

theorem quiet_comment (hs : p.state = .comment) (h : commentState p c = .ok q) : Quiet p q c := by
  simp only [commentState] at h
  split_ifs at h with hc hend
  · subst hc
    refine .popState h rfl rfl ?_ ?_ <;> simp [callsOf, hs, hend, call, openTags]
  · subst hc
    cases h
    exact .silent (by simp [callsOf, hs, hend]) rfl rfl fun hdone => ⟨hdone, by simp [hs]⟩
  · cases h
    exact .silent (by simp [callsOf, hs, hc]) rfl rfl fun hdone => ⟨hdone, by simp [hs]⟩

theorem quiet_cdata (hs : p.state = .cdata) (h : cdataState p c = .ok q) : Quiet p q c := by
  rw [cdataState] at h
  split_ifs at h with hc hend
  · subst hc
    obtain ⟨r, hr, rfl⟩ := exists_of_map_eq_ok h
    have hquiet : Quiet p r 62 := by
      refine .popState hr rfl rfl ?_ ?_ <;> simp [callsOf, hs, hend, call, openTags]
    exact ⟨hquiet.calls, hquiet.tags, hquiet.depth, hquiet.done⟩
  · subst hc
    cases h
    exact .silent (by simp [callsOf, hs, hend]) rfl rfl fun hdone => ⟨hdone, by simp [hs]⟩
  · cases h
    exact .silent (by simp [callsOf, hs, hc]) rfl rfl fun hdone => ⟨hdone, by simp [hs]⟩

theorem quiet_doctype (hs : p.state = .doctype) (h : doctypeState p c = .ok q) : Quiet p q c := by
  have hno : callsOf p c = [] := by rw [callsOf, hs]
  simp only [doctypeState] at h
  split_ifs at h
  · cases h
    exact .silent hno rfl rfl fun hdone => ⟨hdone, by simp [hs]⟩
  · cases h
    exact .silent hno rfl rfl fun hdone => by simp [pushState, hdone]
  · cases h
    exact .silent hno rfl rfl fun hdone => ⟨hdone, by simp [hs]⟩
  · exact .popState h rfl rfl (by simp [hno]) (by simp [hno, openTags])
  · cases h
    exact .silent hno rfl rfl fun hdone => ⟨hdone, by simp [hs]⟩
  · cases h
    exact .silent hno rfl rfl fun hdone => ⟨hdone, by simp [hs]⟩

theorem quiet_beforeXmlDeclaration {rest : List UInt8} {n : Nat}
    (hs : p.state = .beforeXmlDeclaration)
    (h : beforeXmlDeclarationState p c rest = .ok (q, n)) : Quiet p q c := by
  have hno : callsOf p c = [] := by rw [callsOf, hs]
  rw [beforeXmlDeclarationState] at h
  split_ifs at h <;> cases h
  · exact .silent hno rfl rfl fun hdone => ⟨hdone, by simp⟩
  · exact .silent hno rfl rfl fun hdone => ⟨hdone, by simp [hs]⟩

theorem quiet_inXmlDeclaration {rest : List UInt8} {n : Nat} (hs : p.state = .inXmlDeclaration)
    (h : inXmlDeclarationState p c rest = .ok (q, n)) : Quiet p q c := by
  have hno : callsOf p c = [] := by rw [callsOf, hs]
  rw [inXmlDeclarationState] at h
  split_ifs at h <;> cases h
  · exact .silent hno rfl rfl fun hdone => ⟨hdone, by simp⟩
  · exact .silent hno rfl rfl fun hdone => ⟨hdone, by simp [hs]⟩
  · exact .silent hno rfl rfl fun hdone => by simp [startAttribute, pushState, hdone, hs]

theorem quiet_openTag (hs : p.state = .openTag) (hc : c ≠ 62) (h : openTagState p c = .ok q) :
    Quiet p q c := by
  have hno : callsOf p c = [] := by simp [callsOf, hs, hc]
  simp only [openTagState, if_neg hc] at h
  split_ifs at h <;> cases h <;> exact .silent hno rfl rfl fun hdone => ⟨hdone, by simp [hs]⟩

theorem quiet_inTag (hs : p.state = .inTag) (hc : c ≠ 62) (h : inTagState p c = .ok q) :
    Quiet p q c := by
  have hno : callsOf p c = [] := by simp [callsOf, hs, hc]
  simp only [inTagState, if_neg hc] at h
  split_ifs at h <;> cases h
  · exact .silent hno rfl rfl fun hdone => ⟨hdone, by simp⟩
  · exact .silent hno rfl rfl fun hdone => ⟨hdone, by simp [hs]⟩
  · exact .silent hno rfl rfl fun hdone => by simp [startAttribute, pushState, hdone, hs]

theorem quiet_closeTag (hs : p.state = .closeTag) (hc : c ≠ 62) (h : closeTagState p c = .ok q) :
    Quiet p q c := by
  have hno : callsOf p c = [] := by simp [callsOf, hs, hc]
  rw [closeTagState, if_neg hc] at h
  cases h
  exact .silent hno rfl rfl fun hdone => ⟨hdone, by simp [hs]⟩

/-- **What a round can do.** -/
theorem step_cases {rest : List UInt8} {n : Nat} (hne : p.state ≠ .done)
    (hstep : step p c rest = .ok (q, n)) : Quiet p q c ∨
    (callsOf p c = [.startElement p.tagName p.attributes] ∧ endStartTag p = .ok q) ∨
    (p.state = .singleTag ∧ singleTagState p c = .ok q) ∨
    (p.state = .closeTag ∧ c = 62 ∧ closeTagState p c = .ok q) := by
  have hone : ∀ x : Except (List UInt8) QDParser, x.map (fun p => (p, 0)) = .ok (q, n) →
      x = .ok q := by
    intro x hx
    obtain ⟨r, hr, heq⟩ := exists_of_map_eq_ok hx
    cases heq
    exact hr
  rw [step] at hstep
  cases hs : p.state with
  | done => exact absurd hs hne
  | openXmlDeclaration =>
    rw [hs] at hstep
    cases hstep
  | text =>
    rw [hs] at hstep
    cases hstep
    exact Or.inl (quiet_text hs)
  | attributeLvalue =>
    rw [hs] at hstep
    cases hstep
    exact Or.inl (quiet_attributeLvalue hs)
  | quote =>
    rw [hs] at hstep
    exact Or.inl (quiet_quote hs (hone _ hstep))
  | attributeEqual =>
    rw [hs] at hstep
    exact Or.inl (quiet_attributeEqual hs (hone _ hstep))
  | attributeRvalue =>
    rw [hs] at hstep
    exact Or.inl (quiet_attributeRvalue hs (hone _ hstep))
  | startTag =>
    rw [hs] at hstep
    exact Or.inl (quiet_startTag hs (hone _ hstep))
  | entity =>
    rw [hs] at hstep
    exact Or.inl (quiet_entity hs (hone _ hstep))
  | comment =>
    rw [hs] at hstep
    exact Or.inl (quiet_comment hs (hone _ hstep))
  | cdata =>
    rw [hs] at hstep
    exact Or.inl (quiet_cdata hs (hone _ hstep))
  | doctype =>
    rw [hs] at hstep
    exact Or.inl (quiet_doctype hs (hone _ hstep))
  | beforeXmlDeclaration =>
    rw [hs] at hstep
    exact Or.inl (quiet_beforeXmlDeclaration hs hstep)
  | inXmlDeclaration =>
    rw [hs] at hstep
    exact Or.inl (quiet_inXmlDeclaration hs hstep)
  | closeTag =>
    rw [hs] at hstep
    by_cases hc : c = 62
    · exact Or.inr (Or.inr (Or.inr ⟨rfl, hc, hone _ hstep⟩))
    · exact Or.inl (quiet_closeTag hs hc (hone _ hstep))
  | singleTag =>
    rw [hs] at hstep
    exact Or.inr (Or.inr (Or.inl ⟨rfl, hone _ hstep⟩))
  | openTag =>
    rw [hs] at hstep
    by_cases hc : c = 62
    · subst hc
      exact Or.inr (Or.inl ⟨by simp [callsOf, hs], hone _ hstep⟩)
    · exact Or.inl (quiet_openTag hs hc (hone _ hstep))
  | inTag =>
    rw [hs] at hstep
    by_cases hc : c = 62
    · subst hc
      exact Or.inr (Or.inl ⟨by simp [callsOf, hs], hone _ hstep⟩)
    · exact Or.inl (quiet_inTag hs hc (hone _ hstep))

/-- A root that is an empty element ends the document; any other empty element changes nothing. -/
theorem singleTag_eq_ok (h : singleTagState p c = .ok q) : c = 62 ∧
    q.calls = p.calls ++ [.startElement p.tagName p.attributes, .endElement p.tagName] ∧
    q.tagDepth = p.tagDepth ∧ (.done ∉ p.stack → .done ∉ q.stack) ∧
    (.done ∉ p.stack → (q.state = .done ↔ p.tagDepth = 0)) := by
  simp only [singleTagState] at h
  split_ifs at h with hc hzero
  · cases h
  · cases h
    refine ⟨by simpa using hc, by simp [call], rfl, id, fun _ => ?_⟩
    simpa [call] using hzero
  · obtain ⟨r, hr, rfl⟩ := exists_of_map_eq_ok h
    obtain ⟨hcalls, hdepth⟩ := popState_frame hr
    refine ⟨by simpa using hc, hcalls.trans (by simp [call]), hdepth,
      fun hdone => (done_popState hr hdone).1, fun hdone => ?_⟩
    exact iff_of_false (done_popState hr hdone).2 hzero

/-- The end tag of the root ends the document. -/
theorem closeTag_eq_ok (h : closeTagState p 62 = .ok q) :
    q.calls = p.calls ++ [.endElement p.tagName] ∧ q.tagDepth = p.tagDepth - 1 ∧
    (.done ∉ p.stack → .done ∉ q.stack) ∧
    (.done ∉ p.stack → (q.state = .done ↔ p.tagDepth = 1)) := by
  rw [closeTagState, if_pos rfl] at h
  obtain ⟨r, hr, rfl⟩ := exists_of_map_eq_ok h
  obtain ⟨hcalls, hdepth⟩ := popState_frame hr
  change r.tagDepth = p.tagDepth at hdepth
  have hpopped := done_popState hr
  by_cases hzero : r.tagDepth - 1 = 0
  · simp only [if_pos hzero]
    refine ⟨hcalls, by rw [hdepth], fun hdone => (hpopped hdone).1, fun _ => ?_⟩
    simp only [true_iff]
    omega
  · simp only [if_neg hzero]
    refine ⟨hcalls, by rw [hdepth], fun hdone => (hpopped hdone).1, fun hdone => ?_⟩
    exact iff_of_false (hpopped hdone).2 (by omega)

/-- The reader has counted the elements that are open after its calls; it is done when there are
none left. -/
structure Counts (p : QDParser) (tags : List (List UInt8)) : Prop where
  calls : openTags [] p.calls = some tags
  depth : p.state ≠ .done → p.tagDepth = tags.length
  closed : p.state = .done → tags = []
  stack : .done ∉ p.stack

variable {tags tags' : List (List UInt8)} {rest : List UInt8} {n : Nat}

theorem Counts.after (h : Counts p tags) (hcalls : q.calls = p.calls ++ callsOf p c)
    (htags : openTags tags (callsOf p c) = some tags') : openTags [] q.calls = some tags' := by
  rw [hcalls, openTags_append, h.calls]
  exact htags

/-- **One round.**  The reader counts the elements that its calls leave open. -/
theorem step_counts (h : Counts p tags) (hne : p.state ≠ .done)
    (hstep : step p c rest = .ok (q, n)) (htags : openTags tags (callsOf p c) = some tags') :
    Counts q tags' := by
  have hdepth := h.depth hne
  obtain hq | ⟨hcalls, hopen⟩ | ⟨hs, hsingle⟩ | ⟨hs, rfl, hclose⟩ := step_cases hne hstep
  · have heq := (hq.tags tags).symm.trans htags
    cases heq
    exact ⟨h.after hq.calls htags, fun _ => by rw [hq.depth, hdepth],
      fun hdone => absurd hdone (hq.done h.stack).2, (hq.done h.stack).1⟩
  · obtain ⟨hqcalls, hqdepth⟩ := popState_frame hopen
    obtain ⟨hstack, hstate⟩ := done_popState hopen h.stack
    have hafter := h.after (hqcalls.trans (by rw [hcalls]; rfl)) htags
    rw [hcalls] at htags
    cases htags
    refine ⟨hafter, fun _ => ?_, fun hdone => absurd hdone hstate, hstack⟩
    rw [hqdepth]
    change p.tagDepth + 1 = _
    rw [hdepth, List.length_cons]
    rfl
  · obtain ⟨rfl, hqcalls, hqdepth, hstack, hdone⟩ := singleTag_eq_ok hsingle
    have hcalls : callsOf p 62 = [.startElement p.tagName p.attributes, .endElement p.tagName] := by
      simp [callsOf, hs]
    have hafter := h.after (hqcalls.trans (by rw [hcalls])) htags
    have heq : tags = tags' := by simpa [hcalls, openTags] using htags
    subst heq
    refine ⟨hafter, fun _ => hqdepth.trans hdepth, fun hstate => ?_, hstack h.stack⟩
    have hzero := (hdone h.stack).mp hstate
    exact List.length_eq_zero_iff.mp (by omega)
  · obtain ⟨hqcalls, hqdepth, hstack, hdone⟩ := closeTag_eq_ok hclose
    have hcalls : callsOf p 62 = [.endElement p.tagName] := by simp [callsOf, hs]
    have hafter := h.after (hqcalls.trans (by rw [hcalls])) htags
    rw [hcalls] at htags
    cases tags with
    | nil => cases htags
    | cons t tags =>
      rw [openTags] at htags
      split_ifs at htags
      cases htags
      rw [List.length_cons] at hdepth
      refine ⟨hafter, fun _ => by omega, fun hstate => ?_, hstack h.stack⟩
      have hone := (hdone h.stack).mp hstate
      exact List.length_eq_zero_iff.mp (by omega)

/-- Once an element is open, one is open until the reader is done. -/
theorem step_depth (hne : p.state ≠ .done) (hstep : step p c rest = .ok (q, n))
    (hstack : .done ∉ p.stack) (hdepth : 0 < p.tagDepth) :
    .done ∉ q.stack ∧ (q.state = .done ∨ 0 < q.tagDepth) := by
  obtain hq | ⟨hcalls, hopen⟩ | ⟨hs, hsingle⟩ | ⟨hs, rfl, hclose⟩ := step_cases hne hstep
  · exact ⟨(hq.done hstack).1, Or.inr (by rwa [hq.depth])⟩
  · refine ⟨(done_popState hopen hstack).1, Or.inr ?_⟩
    rw [(popState_frame hopen).2]
    change 0 < p.tagDepth + 1
    omega
  · obtain ⟨-, -, hqdepth, hqstack, -⟩ := singleTag_eq_ok hsingle
    exact ⟨hqstack hstack, Or.inr (by rwa [hqdepth])⟩
  · obtain ⟨-, hqdepth, hqstack, hdone⟩ := closeTag_eq_ok hclose
    refine ⟨hqstack hstack, ?_⟩
    by_cases hone : p.tagDepth = 1
    · exact Or.inl ((hdone hstack).mpr hone)
    · exact Or.inr (by omega)

end Rounds
/-! ## 4. Runs -/

section Runs

open CharInput (Coming)

/-- One round of the reader alone, with what is left of the characters. -/
def Step (a b : QDParser × List UInt8) : Prop :=
  a.1.state ≠ .done ∧ ∃ c rest n, a.2 = c :: rest ∧ step a.1 c rest = .ok (b.1, n) ∧
    b.2 = rest.drop n

/-- The reader is at the end of an end tag, and has counted no element. -/
def AtEarlyEndTag (a : QDParser × List UInt8) : Prop :=
  a.1.state = .closeTag ∧ a.1.tagDepth = 0 ∧ a.2.head? = some 62

/-- No end tag stands before the first start tag. -/
def NoEarlyEndTag (input : List UInt8) : Prop :=
  ∀ a, Relation.ReflTransGen Step (QDParser.beginning, nextChars false input) a → ¬AtEarlyEndTag a

/-- Before an early end tag no element is opened, so that none is open. -/
theorem eq_nil_of_early {a b : QDParser × List UInt8} {tags : List (List UInt8)}
    (h : Relation.ReflTransGen Step a b) (hb : AtEarlyEndTag b) (hcounts : Counts a.1 tags)
    (hne : a.1.state ≠ .done) : tags = [] := by
  have hkeep : 0 < a.1.tagDepth → .done ∉ b.1.stack ∧ (b.1.state = .done ∨ 0 < b.1.tagDepth) := by
    clear hb
    intro hdepth
    induction h with
    | refl => exact ⟨hcounts.stack, Or.inr hdepth⟩
    | tail _ hstep ih =>
      obtain ⟨hmid, c, rest, n, -, hok, -⟩ := hstep
      exact step_depth hmid hok ih.1 (ih.2.resolve_left hmid)
  have hdepth := hcounts.depth hne
  by_contra htags
  have hpos := List.length_pos_of_ne_nil htags
  obtain ⟨-, hdone | hpos'⟩ := hkeep (by omega)
  · rw [hb.1] at hdone
    cases hdone
  · rw [hb.2.1] at hpos'
    exact absurd hpos' (lt_irrefl 0)

/-- The character that was read last, and what the next calls will return. -/
def At (c : UInt8) (s : CharInput) (cs : List UInt8) : Prop :=
  (∃ rest, cs = c :: rest ∧ Coming s rest) ∨ cs = [] ∧ s.hasMoreInput = false

variable {readSize : Nat → Nat} {h : Heap MiniDOMNode} {handler : MiniDOMDocHandler}
  {p : QDParser} {c : UInt8} {s : CharInput} {cs : List UInt8} {tags : List (List UInt8)}

theorem exists_at (hsize : ∀ n, 0 < readSize n) {rest : List UInt8} (hs : Coming s rest) :
    ∃ c s', s.getNextChar readSize = some (c, s') ∧ At c s' rest := by
  cases rest with
  | nil =>
    obtain ⟨s', hcall, hend⟩ := CharInput.getNextChar_nil hsize hs
    exact ⟨0, s', hcall, Or.inr ⟨rfl, hend⟩⟩
  | cons c rest =>
    obtain ⟨s', hcall, hs'⟩ := CharInput.getNextChar_cons hsize hs
    exact ⟨c, s', hcall, Or.inl ⟨rest, rfl, hs'⟩⟩

/-- Only an end tag can have no element, or one of another name. -/
theorem closeTag_of_openTags (h : openTags tags (callsOf p c) = none) :
    p.state = .closeTag ∧ c = 62 := by
  unfold callsOf at h
  cases hs : p.state with
  | closeTag =>
    refine ⟨rfl, ?_⟩
    by_contra hc
    simp [hs, hc, openTags] at h
  | _ =>
    rw [hs] at h
    simp only at h
    try split_ifs at h
    all_goals simp [openTags] at h

/-- **One round** of the loop with the handler, where the calls fit the open elements. -/
theorem run_parseLoop_round (hsize : ∀ n, 0 < readSize n) {rest : List UInt8}
    {tags' : List (List UInt8)} (ho : Open h handler tags) (hne : p.state ≠ .done)
    (hs : Coming s rest) (htags : openTags tags (callsOf p c) = some tags') (fuel : Nat) :
    ∃ handler' h', Open h' handler' tags' ∧
      (∀ e, step p c rest = .error e → (parseLoop readSize (fuel + 1) p c s handler).run h =
        some (.exception (p.calls ++ callsOf p c) e, h')) ∧
      ∀ q n, step p c rest = .ok (q, n) → ∃ c' s', At c' s' (rest.drop n) ∧
        (parseLoop readSize (fuel + 1) p c s handler).run h =
          (parseLoop readSize fuel q c' s' handler').run h' := by
  obtain ⟨handler', h', hcalls, ho'⟩ := run_handleCalls ho htags
  obtain ⟨herror, hok⟩ := round_spec hsize hs p c
  refine ⟨handler', h', ho', fun e he => ?_, fun q n hstep => ?_⟩
  · rw [parseLoop, if_pos hs.hasMoreInput, if_neg hne, Partial.run_bind_of_some hcalls]
    simp only
    rw [Partial.run_bind_of_some (Partial.run_ofOption_some (herror e he) h')]
    rfl
  · obtain ⟨s₁, hround, hs₁⟩ := hok q n hstep
    obtain ⟨c', s', hcall, hat⟩ := exists_at hsize hs₁
    refine ⟨c', s', hat, ?_⟩
    rw [parseLoop, if_pos hs.hasMoreInput, if_neg hne, Partial.run_bind_of_some hcalls]
    simp only
    rw [Partial.run_bind_of_some (Partial.run_ofOption_some hround h')]
    simp only
    rw [Partial.run_bind_of_some (Partial.run_ofOption_some hcall h')]

/-- An early end tag ends the run at a null pointer. -/
theorem run_parseLoop_early (ho : Open h handler tags) (hcounts : Counts p tags)
    (hat : At c s cs) (hearly : AtEarlyEndTag (p, cs)) (fuel : Nat) :
    (parseLoop readSize fuel p c s handler).run h = none := by
  obtain ⟨hstate, hdepth, hhead⟩ := hearly
  change p.state = .closeTag at hstate
  have hne : p.state ≠ .done := by simp [hstate]
  have hlength := (hcounts.depth hne).symm.trans hdepth
  obtain rfl : tags = [] := List.length_eq_zero_iff.mp (by omega)
  obtain ⟨rest, rfl, hs⟩ | ⟨rfl, -⟩ := hat
  · have hc : c = 62 := by simpa using hhead
    subst hc
    cases fuel with
    | zero => rfl
    | succ fuel =>
      have hcalls : callsOf p 62 = [.endElement p.tagName] := by simp [callsOf, hstate]
      rw [parseLoop, if_pos hs.hasMoreInput, if_neg hne]
      apply Partial.run_bind_of_none
      rw [hcalls, MiniDOMDocHandler.handleCalls]
      exact Partial.run_bind_of_none (run_endElement_nil ho p.tagName)
  · cases hhead

/-- **A run to an early end tag** comes to a null pointer, by induction on the rounds before it. -/
theorem run_parseLoop_none (hsize : ∀ n, 0 < readSize n) {a b : QDParser × List UInt8}
    (hrun : Relation.ReflTransGen Step a b) (hb : AtEarlyEndTag b) (ho : Open h handler tags)
    (hcounts : Counts a.1 tags) (hat : At c s a.2) (fuel : Nat) :
    (parseLoop readSize fuel a.1 c s handler).run h = none := by
  induction hrun using Relation.ReflTransGen.head_induction_on generalizing h handler tags c s fuel
    with
  | refl => exact run_parseLoop_early ho hcounts hat hb fuel
  | head hstep hrest ih =>
    next a a' =>
    obtain rfl := eq_nil_of_early (Relation.ReflTransGen.head hstep hrest) hb hcounts hstep.1
    obtain ⟨hne, d, rest, n, hcs, hok, hrest'⟩ := hstep
    obtain ⟨rest', hcons, hs⟩ | ⟨hnil, -⟩ := hat
    · rw [hcs] at hcons
      obtain ⟨rfl, rfl⟩ := List.cons.inj hcons
      cases fuel with
      | zero => rfl
      | succ fuel =>
        cases htags : openTags [] (callsOf a.1 d) with
        | none =>
          obtain ⟨hstate, rfl⟩ := closeTag_of_openTags htags
          refine run_parseLoop_early ho hcounts (Or.inl ⟨rest, rfl, hs⟩) ⟨hstate, ?_, rfl⟩ _
          exact hcounts.depth hne
        | some tags' =>
          obtain ⟨handler', h', ho', -, hround⟩ := run_parseLoop_round hsize ho hne hs htags fuel
          obtain ⟨c', s', hat', heq⟩ := hround _ _ hok
          rw [heq]
          exact ih ho' (step_counts hcounts hne hok htags) (by rwa [hrest']) fuel
    · rw [hcs] at hnil
      cases hnil

/-- A document has no open element left and is there; an exception came where the calls before it
fitted together. -/
def Result.Fine (h : Heap MiniDOMNode) : Result → Prop
  | .document calls doc =>
    openTags [] calls = some [] ∧ ∃ document, h.cell doc = some document ∧ document.kind = .document
  | .exception calls _ => ∃ tags, openTags [] calls = some tags

/-- **All other runs**, by induction on the number of rounds. -/
theorem run_parseLoop_fine (hsize : ∀ n, 0 < readSize n) {fuel : Nat} (ho : Open h handler tags)
    (hcounts : Counts p tags) (hat : At c s cs)
    (hearly : ∀ a, Relation.ReflTransGen Step (p, cs) a → ¬AtEarlyEndTag a)
    (hfuel : cs.length < fuel) :
    ∃ result h', (parseLoop readSize fuel p c s handler).run h = some (result, h') ∧
      result.Fine h' := by
  induction fuel generalizing h handler tags p c s cs with
  | zero => cases hfuel
  | succ fuel ih =>
    have hdocument : p.state = .done → (Result.document p.calls handler.doc).Fine h :=
      fun hdone => ⟨by rw [hcounts.calls, hcounts.closed hdone], ho.doc⟩
    obtain ⟨rest, rfl, hs⟩ | ⟨rfl, hend⟩ := hat
    · by_cases hdone : p.state = .done
      · refine ⟨.document p.calls handler.doc, h, ?_, hdocument hdone⟩
        rw [parseLoop, if_pos hs.hasMoreInput, if_pos hdone]
        rfl
      · cases htags : openTags tags (callsOf p c) with
        | none =>
          obtain ⟨hstate, rfl⟩ := closeTag_of_openTags htags
          have hcalls : callsOf p 62 = [.endElement p.tagName] := by simp [callsOf, hstate]
          rw [hcalls] at htags
          cases tags with
          | nil =>
            exact absurd ⟨hstate, hcounts.depth hdone, rfl⟩ (hearly _ Relation.ReflTransGen.refl)
          | cons t tags =>
            have hne : p.tagName ≠ t := by
              intro heq
              simp [openTags, heq] at htags
            obtain ⟨r, h', hrun, -, herror⟩ := run_endElement_cons ho p.tagName
            obtain ⟨e, rfl⟩ := herror hne
            refine ⟨.exception p.calls e, h', ?_, _, hcounts.calls⟩
            rw [parseLoop, if_pos hs.hasMoreInput, if_neg hdone, hcalls]
            have hcall : (handler.handleCalls [.endElement p.tagName]).run h =
                some (.error e, h') := by
              rw [MiniDOMDocHandler.handleCalls]
              exact (Partial.run_bind_of_some hrun).trans rfl
            exact (Partial.run_bind_of_some hcall).trans rfl
        | some tags' =>
          obtain ⟨handler', h', ho', herror, hround⟩ :=
            run_parseLoop_round hsize ho hdone hs htags fuel
          cases hstep : step p c rest with
          | error e =>
            refine ⟨_, h', herror e hstep, tags', ?_⟩
            rw [openTags_append, hcounts.calls]
            exact htags
          | ok r =>
            obtain ⟨q, n⟩ := r
            obtain ⟨c', s', hat', heq⟩ := hround q n hstep
            rw [heq]
            refine ih ho' (step_counts hcounts hdone hstep htags) hat' (fun a ha => ?_) ?_
            · exact hearly a (Relation.ReflTransGen.head ⟨hdone, c, rest, n, rfl, hstep, rfl⟩ ha)
            · rw [List.length_drop]
              simp only [List.length_cons] at hfuel
              omega
    · by_cases hdone : p.state = .done
      · refine ⟨.document p.calls handler.doc, h, ?_, hdocument hdone⟩
        rw [parseLoop, hend, if_neg Bool.false_ne_true, if_pos hdone]
        rfl
      · refine ⟨.exception p.calls (bytes "missing end tag"), h, ?_, tags, hcounts.calls⟩
        rw [parseLoop, hend, if_neg Bool.false_ne_true, if_neg hdone]
        rfl

/-- Reading the input ends with a document or an exception, and no undefined access. -/
def Parses (readSize : Nat → Nat) (h : Heap MiniDOMNode) (doc : Nat) (input : List UInt8) : Prop :=
  ∃ bound, ∀ fuel, bound ≤ fuel →
    ∃ result h', (parse readSize fuel input doc).run h = some (result, h') ∧ result.Fine h'

/-- The handler begins with a document and without open elements. -/
theorem open_new {doc : Nat}
    (hdoc : ∃ document, h.cell doc = some document ∧ document.kind = .document) :
    Open h ⟨[], doc, none⟩ [] where
  chain := rfl
  doc := hdoc

theorem counts_beginning : Counts QDParser.beginning [] where
  calls := rfl
  depth := fun _ => rfl
  closed := fun hdone => by cases hdone
  stack := List.not_mem_nil

/-- The run begins with the first character. -/
theorem exists_run_parse (hsize : ∀ n, 0 < readSize n) (doc : Nat) (input : List UInt8) :
    ∃ c s, At c s (nextChars false input) ∧ ∀ fuel, (parse readSize fuel input doc).run h =
      (parseLoop readSize fuel QDParser.beginning c s ⟨[], doc, none⟩).run h := by
  obtain ⟨c, s, hcall, hat⟩ := exists_at hsize (CharInput.coming_new input)
  refine ⟨c, s, hat, fun fuel => ?_⟩
  rw [parse, Partial.run_bind_of_some (Partial.run_ofOption_some hcall h)]

theorem not_parses_of_early (hsize : ∀ n, 0 < readSize n) {doc : Nat}
    (hdoc : ∃ document, h.cell doc = some document ∧ document.kind = .document)
    {input : List UInt8} {a : QDParser × List UInt8}
    (hrun : Relation.ReflTransGen Step (QDParser.beginning, nextChars false input) a)
    (hearly : AtEarlyEndTag a) : ¬Parses readSize h doc input := by
  rintro ⟨bound, hparses⟩
  obtain ⟨c, s, hat, hbegin⟩ := exists_run_parse hsize doc input
  obtain ⟨result, h', hsome, -⟩ := hparses bound (Nat.le_refl bound)
  rw [hbegin, run_parseLoop_none hsize hrun hearly (open_new hdoc) counts_beginning hat] at hsome
  cases hsome

/-- **When malformed documents are refused.**  Every input is read into a document or refused with
an exception unless an end tag stands before the first start tag. -/
theorem parses_iff (hsize : ∀ n, 0 < readSize n) {doc : Nat}
    (hdoc : ∃ document, h.cell doc = some document ∧ document.kind = .document)
    (input : List UInt8) : Parses readSize h doc input ↔ NoEarlyEndTag input := by
  constructor
  · intro hparses a hrun hearly
    exact not_parses_of_early hsize hdoc hrun hearly hparses
  · intro hearly
    obtain ⟨c, s, hat, hbegin⟩ := exists_run_parse (h := h) hsize doc input
    refine ⟨(nextChars false input).length + 1, fun fuel hfuel => ?_⟩
    rw [hbegin]
    exact run_parseLoop_fine hsize (open_new hdoc) counts_beginning hat hearly hfuel

/-- A new document. -/
def emptyDocument : Heap MiniDOMNode := Heap.empty.alloc ⟨.document, none, [], .empty, none⟩

/-- Follows the rounds of the reader, and tells whether none of them is at an early end tag. -/
def meetsNoEarlyEndTag : Nat → QDParser → List UInt8 → Bool
  | 0, _, _ => false
  | fuel + 1, p, cs =>
    if p.state = .closeTag ∧ p.tagDepth = 0 ∧ cs.head? = some 62 then false
    else if p.state = .done then true
    else
      match cs with
      | [] => true
      | c :: rest =>
        match step p c rest with
        | .ok (q, n) => meetsNoEarlyEndTag fuel q (rest.drop n)
        | .error _ => true

theorem not_early_of_meets : ∀ (fuel : Nat) {p : QDParser} {cs : List UInt8},
    meetsNoEarlyEndTag fuel p cs = true →
      ∀ b, Relation.ReflTransGen Step (p, cs) b → ¬AtEarlyEndTag b
  | 0, _, _, h => by cases h
  | fuel + 1, p, cs, h => by
    unfold meetsNoEarlyEndTag at h
    split_ifs at h with hearly hdone
    · intro b hb
      obtain rfl | ⟨q, ⟨hne, -⟩, -⟩ := hb.cases_head
      · exact hearly
      · exact absurd hdone hne
    · intro b hb
      obtain rfl | ⟨⟨q, cs'⟩, ⟨-, c, rest, n, hcs, hstep, hrest⟩, hb⟩ := hb.cases_head
      · exact hearly
      · change cs = c :: rest at hcs
        change cs' = rest.drop n at hrest
        subst hcs hrest
        simp only [hstep] at h
        exact not_early_of_meets fuel h b hb

/-- An element in another one. -/
def nestedDocument : List UInt8 := bytes "<?xml ?><a><b>x</b></a>"

/-- Both elements are built. -/
theorem parses_nested :
    Parses (fun _ => 32 * 1024) emptyDocument 0 nestedDocument ∧
      ((parse (fun _ => 32 * 1024) 24 nestedDocument 0).run emptyDocument).map
          (fun r => r.2.next) = some 4 := by
  refine ⟨(parses_iff (fun _ => by decide) ⟨_, rfl, rfl⟩ _).mpr ?_, by decide +kernel⟩
  exact not_early_of_meets 24 (by decide +kernel)

/-- An end tag after the XML declaration ends the run at a null pointer. -/
theorem not_parses_end_tag :
    ¬Parses (fun _ => 32 * 1024) emptyDocument 0 (bytes "<?xml ?></a>") := by
  have hbytes : bytes "<?xml ?></a>" = [60, 63, 120, 109, 108, 32, 63, 62, 60, 47, 97, 62] := rfl
  let p₁ : QDParser := { QDParser.beginning with state := .inXmlDeclaration }
  let p₂ : QDParser :=
    { p₁ with encoding := QDParser.declaredEncoding .empty, state := .text }
  let p₃ : QDParser := { p₂ with state := .startTag, stack := [.text], tagName := [] }
  let p₄ : QDParser := { p₃ with state := .closeTag }
  let p₅ : QDParser := { p₄ with tagName := [97] }
  have hone : Step (QDParser.beginning, [60, 63, 120, 109, 108, 32, 63, 62, 60, 47, 97, 62])
      (p₁, [63, 62, 60, 47, 97, 62]) := ⟨by decide, 60, _, 5, rfl, rfl, rfl⟩
  have htwo : Step (p₁, [63, 62, 60, 47, 97, 62]) (p₂, [60, 47, 97, 62]) :=
    ⟨by decide, 63, _, 1, rfl, rfl, rfl⟩
  have hthree : Step (p₂, [60, 47, 97, 62]) (p₃, [47, 97, 62]) :=
    ⟨by decide, 60, _, 0, rfl, rfl, rfl⟩
  have hfour : Step (p₃, [47, 97, 62]) (p₄, [97, 62]) :=
    ⟨by decide, 47, _, 0, rfl, rfl, rfl⟩
  have hfive : Step (p₄, [97, 62]) (p₅, [62]) :=
    ⟨by decide, 97, _, 0, rfl, rfl, rfl⟩
  rw [hbytes]
  refine not_parses_of_early (fun _ => by decide) ⟨_, rfl, rfl⟩ (a := (p₅, [62])) ?_ ⟨rfl, rfl, rfl⟩
  exact ((((Relation.ReflTransGen.single hone).tail htwo).tail hthree).tail hfour).tail hfive

end Runs

end Emdros.MiniDOM
