/-
# The characters of a document (`QDParser::getNextChar`)

The input is read into a buffer, a piece at a time, with a zero byte after the last piece.  A line
feed that follows a carriage return is passed over, whichever buffer it is in: `m_end_of_line`
remembers the carriage return.

`getNextChar_spec` is what one call does, with what is left of the input as the measure; from it,
`delivers_nextChars` says which characters the calls return until the input ends.  They are those
of the input with its line ends normalised unless a carriage return follows a line end of two
characters (`delivers_normalizeLineEnds_iff`): the call that passes over the line feed returns what
it finds there.
-/
import Mathlib
import Emdros.EMdF.QDXmlDocuments

namespace Emdros

open XmlText (normalizeLineEnds)

/-! ## 1. The buffer -/

/-- The members of `QDParser` for its input.  Positions count from `bot`, and a buffer that does not
exist yet is an empty one. -/
structure CharInput where
  buffer : List UInt8
  cur : Nat
  lim : Nat
  /-- `none` is a null pointer. -/
  eof : Option Nat
  endOfLine : Bool
  /-- What is left in the stream. -/
  stream : List UInt8
  /-- How often the stream was read. -/
  reads : Nat

namespace CharInput

def new (input : List UInt8) : CharInput := ⟨[], 0, 0, none, false, input, 0⟩

/-- `readSize` is `READ_SIZE` in each of the reads; the buffer has room for two of them. -/
def readIntoBuffer (readSize : Nat → Nat) (s : CharInput) : Option CharInput :=
  let size := readSize s.reads
  if 2 * size - s.lim < size then none
  else
    let read := s.stream.take size
    let s := { s with
      buffer := s.buffer ++ read, lim := s.lim + read.length
      stream := s.stream.drop size, reads := s.reads + 1 }
    if read.length ≠ size then
      some { s with buffer := s.buffer ++ [0], eof := some (s.lim + 1) }
    else some s

def fillBuffer (readSize : Nat → Nat) (s : CharInput) : Option CharInput :=
  match s.eof with
  | some _ => some s
  | none =>
    if s.cur > s.lim then none
    else readIntoBuffer readSize
      { s with buffer := (s.buffer.take s.lim).drop s.cur, cur := 0, lim := s.lim - s.cur }

def hasMoreInput (s : CharInput) : Bool := s.eof ≠ some s.cur

/-- `*cur++`, after the buffer was filled if there is nothing in it. -/
def nextByte (readSize : Nat → Nat) (s : CharInput) : Option (UInt8 × CharInput) := do
  let s ← if s.lim = s.cur then fillBuffer readSize s else some s
  let c ← s.buffer[s.cur]?
  return (c, { s with cur := s.cur + 1 })

def handleEOL (readSize : Nat → Nat) (c : UInt8) (s : CharInput) : Option (UInt8 × CharInput) :=
  if c = 13 then some (10, { s with endOfLine := true })
  else if s.endOfLine then do
    let (c, s) ← if s.hasMoreInput then nextByte readSize s else some (c, s)
    return (c, { s with endOfLine := false })
  else some (c, s)

def getNextChar (readSize : Nat → Nat) (s : CharInput) : Option (UInt8 × CharInput) := do
  let (c, s) ← nextByte readSize s
  if c = 10 ∨ c = 13 then handleEOL readSize c s
  else return (c, { s with endOfLine := false })

/-- What the calls return as long as there is input, the end marker included. -/
def chars (readSize : Nat → Nat) : Nat → CharInput → Option (List UInt8)
  | 0, _ => none
  | fuel + 1, s =>
    if s.hasMoreInput then do
      let (c, s) ← getNextChar readSize s
      let cs ← chars readSize fuel s
      return c :: cs
    else some []

/-- The calls return `out`, and then the end marker. -/
def Delivers (readSize : Nat → Nat) (input out : List UInt8) : Prop :=
  ∃ bound, ∀ fuel, bound ≤ fuel → chars readSize fuel (new input) = some (out ++ [0])

/-! ## 2. What is left of the input -/

/-- `cs` is what has not been read by `getNextChar`. -/
structure Ahead (s : CharInput) (cs : List UInt8) : Prop where
  cur_le : s.cur ≤ s.lim
  open_end : s.eof = none → s.buffer.length = s.lim ∧ cs = s.buffer.drop s.cur ++ s.stream
  marked : ∀ e, s.eof = some e → e = s.lim + 1 ∧
    ∃ text, s.buffer = text ++ [0] ∧ text.length = s.lim ∧ cs = text.drop s.cur

theorem ahead_new (input : List UInt8) : Ahead (new input) input where
  cur_le := Nat.le_refl 0
  open_end := fun _ => ⟨rfl, rfl⟩
  marked := fun _ h => by cases h

section Reading

variable {readSize : Nat → Nat} {s : CharInput} {cs : List UInt8}

theorem Ahead.hasMoreInput (h : Ahead s cs) : s.hasMoreInput = true := by
  rw [CharInput.hasMoreInput, decide_eq_true_iff]
  intro heof
  have := (h.marked _ heof).1
  have := h.cur_le
  omega

/-- The flag is no part of the input. -/
theorem Ahead.setEndOfLine (h : Ahead s cs) (b : Bool) : Ahead { s with endOfLine := b } cs :=
  ⟨h.cur_le, h.open_end, h.marked⟩

/-- A filled buffer has the same input ahead, and begins with it. -/
theorem fillBuffer_spec (hsize : ∀ n, 0 < readSize n) (h : Ahead s cs) (hcur : s.cur = s.lim) :
    ∃ s', fillBuffer readSize s = some s' ∧ Ahead s' cs ∧ s'.endOfLine = s.endOfLine ∧
      (s'.cur = s'.lim → s'.eof ≠ none) := by
  cases heof : s.eof with
  | some e =>
    refine ⟨s, by rw [fillBuffer, heof], h, rfl, fun _ => ?_⟩
    rw [heof]
    exact Option.some_ne_none e
  | none =>
    obtain ⟨hlength, rfl⟩ := h.open_end heof
    have hdrop : s.buffer.drop s.cur = [] := by
      rw [List.drop_eq_nil_iff]
      omega
    have hempty : (s.buffer.take s.lim).drop s.cur = [] := by
      rw [← hlength, List.take_length, hdrop]
    have hpos := hsize s.reads
    have hroom : ¬ 2 * readSize s.reads - (s.lim - s.cur) < readSize s.reads := by omega
    rw [fillBuffer, heof, if_neg (by omega)]
    simp only [readIntoBuffer, hempty, List.nil_append, if_neg hroom, hdrop]
    by_cases hshort : (s.stream.take (readSize s.reads)).length = readSize s.reads
    · rw [if_neg (not_not_intro hshort)]
      refine ⟨_, rfl, ⟨by simp, fun _ => ⟨by simp [hcur], ?_⟩, fun e he => ?_⟩, rfl, fun hlim => ?_⟩
      · simp
      · cases he
      · rw [hshort] at hlim
        simp only at hlim
        omega
    · rw [if_pos hshort]
      have hall : s.stream.take (readSize s.reads) = s.stream := by
        rw [List.length_take] at hshort
        exact List.take_of_length_le (by omega)
      refine ⟨_, rfl, ⟨by simp, fun he => ?_, fun e he => ?_⟩, rfl, fun _ => ?_⟩
      · cases he
      · cases he
        refine ⟨rfl, s.stream, ?_, ?_, ?_⟩
        · rw [hall]
        · simp [hall, hcur]
        · simp
      · exact Option.some_ne_none _

@[simp] theorem nextChars_cr (b : Bool) (cs : List UInt8) :
    nextChars b (13 :: cs) = 10 :: nextChars true cs := by
  cases cs <;> rfl

@[simp] theorem nextChars_lf (cs : List UInt8) :
    nextChars false (10 :: cs) = 10 :: nextChars false cs := by
  cases cs <;> rfl

theorem nextChars_cons {c : UInt8} (hcr : c ≠ 13) (hlf : c ≠ 10) (b : Bool) (cs : List UInt8) :
    nextChars b (c :: cs) = c :: nextChars false cs := by
  cases cs <;> simp [nextChars, hcr, hlf]

/-- Before a byte is read there is something to read: a byte of the input or the end marker. -/
theorem exists_filled (hsize : ∀ n, 0 < readSize n) (h : Ahead s cs) :
    ∃ s', nextByte readSize s =
        (s'.buffer[s'.cur]?).map (fun c => (c, { s' with cur := s'.cur + 1 })) ∧
      Ahead s' cs ∧ s'.endOfLine = s.endOfLine ∧ (s'.cur = s'.lim → s'.eof ≠ none) := by
  by_cases hcur : s.cur = s.lim
  · obtain ⟨s', hfill, h', hflag, heof⟩ := fillBuffer_spec hsize h hcur
    refine ⟨s', ?_, h', hflag, heof⟩
    rw [nextByte, if_pos hcur.symm, hfill]
    cases hbyte : s'.buffer[s'.cur]? <;> simp [hbyte]
  · refine ⟨s, ?_, h, rfl, fun hlim => absurd hlim hcur⟩
    rw [nextByte, if_neg (Ne.symm hcur)]
    cases hbyte : s.buffer[s.cur]? <;> simp [hbyte]

/-- One byte is read, ... -/
theorem nextByte_cons (hsize : ∀ n, 0 < readSize n) {c : UInt8} (h : Ahead s (c :: cs)) :
    ∃ s', nextByte readSize s = some (c, s') ∧ Ahead s' cs ∧ s'.endOfLine = s.endOfLine := by
  obtain ⟨s', hbyte, h', hflag, hlim⟩ := exists_filled hsize h
  have hle := h'.cur_le
  cases heof : s'.eof with
  | none =>
    obtain ⟨hlength, hcs⟩ := h'.open_end heof
    have hlt : s'.cur < s'.buffer.length := by
      have hne : s'.cur ≠ s'.lim := fun heq => hlim heq heof
      omega
    rw [List.drop_eq_getElem_cons hlt, List.cons_append] at hcs
    obtain ⟨rfl, rfl⟩ := List.cons.inj hcs
    refine ⟨{ s' with cur := s'.cur + 1 }, ?_, ⟨?_, ?_, ?_⟩, hflag⟩
    · rw [hbyte, List.getElem?_eq_getElem hlt]
      rfl
    · change s'.cur + 1 ≤ s'.lim
      omega
    · exact fun _ => ⟨hlength, rfl⟩
    · intro e he
      rw [heof] at he
      cases he
  | some e =>
    obtain ⟨he, text, hbuffer, hlength, hcs⟩ := h'.marked e heof
    have hlt : s'.cur < text.length := by
      by_contra hge
      rw [List.drop_eq_nil_of_le (Nat.le_of_not_lt hge)] at hcs
      cases hcs
    rw [List.drop_eq_getElem_cons hlt] at hcs
    obtain ⟨rfl, rfl⟩ := List.cons.inj hcs
    have hget : s'.buffer[s'.cur]? = some text[s'.cur] := by
      rw [hbuffer, List.getElem?_append_left hlt, List.getElem?_eq_getElem hlt]
    refine ⟨{ s' with cur := s'.cur + 1 }, ?_, ⟨?_, ?_, ?_⟩, hflag⟩
    · rw [hbyte, hget]
      rfl
    · change s'.cur + 1 ≤ s'.lim
      omega
    · intro hnone
      rw [heof] at hnone
      cases hnone
    · intro e' he'
      rw [heof] at he'
      cases he'
      exact ⟨he, text, hbuffer, hlength, rfl⟩

/-- ...or the end marker. -/
theorem nextByte_nil (hsize : ∀ n, 0 < readSize n) (h : Ahead s []) :
    ∃ s', nextByte readSize s = some (0, s') ∧ s'.hasMoreInput = false := by
  obtain ⟨s', hbyte, h', -, hlim⟩ := exists_filled hsize h
  have hle := h'.cur_le
  cases heof : s'.eof with
  | none =>
    obtain ⟨hlength, hcs⟩ := h'.open_end heof
    have hdrop := List.drop_eq_nil_iff.mp (List.append_eq_nil_iff.mp hcs.symm).1
    exact absurd heof (hlim (by omega))
  | some e =>
    obtain ⟨he, text, hbuffer, hlength, hcs⟩ := h'.marked e heof
    have hge := List.drop_eq_nil_iff.mp hcs.symm
    have hcur : s'.cur = text.length := by omega
    have hget : s'.buffer[s'.cur]? = some 0 := by
      rw [hbuffer, hcur, List.getElem?_concat_length]
    refine ⟨{ s' with cur := s'.cur + 1 }, by rw [hbyte, hget]; rfl, ?_⟩
    rw [CharInput.hasMoreInput, decide_eq_false_iff_not]
    simp [heof, he, hcur, hlength]

/-- **One call.**  It returns the next character and leaves less of the input, or the end marker,
and then there is no more. -/
theorem getNextChar_spec (hsize : ∀ n, 0 < readSize n) (h : Ahead s cs) :
    ∃ c s', getNextChar readSize s = some (c, s') ∧
      ((c = 0 ∧ s'.hasMoreInput = false ∧ nextChars s.endOfLine cs = []) ∨
        ∃ cs', Ahead s' cs' ∧ cs'.length < cs.length ∧
          nextChars s.endOfLine cs = c :: nextChars s'.endOfLine cs') := by
  cases cs with
  | nil =>
    obtain ⟨s', hbyte, hend⟩ := nextByte_nil hsize h
    refine ⟨0, { s' with endOfLine := false }, ?_, Or.inl ⟨rfl, hend, by simp [nextChars]⟩⟩
    rw [getNextChar, hbyte]
    rfl
  | cons c cs =>
    obtain ⟨s', hbyte, hahead, hflag⟩ := nextByte_cons hsize h
    by_cases hcr : c = 13
    · subst hcr
      refine ⟨10, { s' with endOfLine := true }, ?_, Or.inr ⟨cs, hahead.setEndOfLine true,
        Nat.lt_succ_self _, by simp⟩⟩
      rw [getNextChar, hbyte]
      rfl
    by_cases hlf : c = 10
    · subst hlf
      cases hend : s.endOfLine with
      | false =>
        refine ⟨10, s', ?_, Or.inr ⟨cs, hahead, Nat.lt_succ_self _, ?_⟩⟩
        · rw [getNextChar, hbyte]
          simp [handleEOL, hflag, hend]
        · simp [hflag, hend]
      | true =>
        -- The second half of a pair: the next byte is returned in its place.
        have hcall : ∀ {c s''}, nextByte readSize s' = some (c, s'') →
            getNextChar readSize s = some (c, { s'' with endOfLine := false }) := by
          intro c s'' hnext
          rw [getNextChar, hbyte]
          simp [handleEOL, hflag, hend, hahead.hasMoreInput, hnext]
        cases cs with
        | nil =>
          obtain ⟨s'', hnext, hmore⟩ := nextByte_nil hsize hahead
          exact ⟨0, _, hcall hnext, Or.inl ⟨rfl, hmore, by simp [nextChars]⟩⟩
        | cons d cs =>
          obtain ⟨s'', hnext, hahead', -⟩ := nextByte_cons hsize hahead
          refine ⟨d, _, hcall hnext, Or.inr ⟨cs, hahead'.setEndOfLine false, ?_, ?_⟩⟩
          · simp only [List.length_cons]
            omega
          · simp [nextChars]
    · refine ⟨c, { s' with endOfLine := false }, ?_, Or.inr ⟨cs, hahead.setEndOfLine false,
        Nat.lt_succ_self _, nextChars_cons hcr hlf _ _⟩⟩
      rw [getNextChar, hbyte]
      simp [hcr, hlf]

/-- The calls will return `rest`, and then the end marker. -/
def Coming (s : CharInput) (rest : List UInt8) : Prop :=
  ∃ cs, Ahead s cs ∧ rest = nextChars s.endOfLine cs

theorem coming_new (input : List UInt8) : Coming (new input) (nextChars false input) :=
  ⟨input, ahead_new input, rfl⟩

theorem Coming.hasMoreInput {rest : List UInt8} (h : Coming s rest) : s.hasMoreInput = true := by
  obtain ⟨cs, hahead, -⟩ := h
  exact hahead.hasMoreInput

theorem getNextChar_cons (hsize : ∀ n, 0 < readSize n) {c : UInt8} {rest : List UInt8}
    (h : Coming s (c :: rest)) :
    ∃ s', getNextChar readSize s = some (c, s') ∧ Coming s' rest := by
  obtain ⟨cs, hahead, hrest⟩ := h
  obtain ⟨d, s', hcall, ⟨-, -, hnil⟩ | ⟨cs', hahead', -, hcons⟩⟩ := getNextChar_spec hsize hahead
  · rw [hnil] at hrest
    cases hrest
  · rw [hcons] at hrest
    obtain ⟨rfl, rfl⟩ := List.cons.inj hrest
    exact ⟨s', hcall, cs', hahead', rfl⟩

theorem getNextChar_nil (hsize : ∀ n, 0 < readSize n) (h : Coming s []) :
    ∃ s', getNextChar readSize s = some (0, s') ∧ s'.hasMoreInput = false := by
  obtain ⟨cs, hahead, hrest⟩ := h
  obtain ⟨d, s', hcall, ⟨rfl, hend, -⟩ | ⟨cs', hahead', -, hcons⟩⟩ := getNextChar_spec hsize hahead
  · exact ⟨s', hcall, hend⟩
  · rw [hcons] at hrest
    cases hrest

/-- **All calls**, by induction on what is left of the input. -/
theorem chars_ahead (hsize : ∀ n, 0 < readSize n) {fuel : Nat} (h : Ahead s cs)
    (hfuel : cs.length + 2 ≤ fuel) :
    chars readSize fuel s = some (nextChars s.endOfLine cs ++ [0]) := by
  induction fuel generalizing s cs with
  | zero => cases hfuel
  | succ fuel ih =>
    obtain ⟨c, s', hcall, ⟨rfl, hend, hnil⟩ | ⟨cs', hahead, hlt, hcons⟩⟩ := getNextChar_spec hsize h
    · obtain ⟨fuel, rfl⟩ : ∃ n, fuel = n + 1 := Nat.exists_eq_add_one.mpr (by omega)
      simp [chars, h.hasMoreInput, hcall, hend, hnil]
    · simp [chars, h.hasMoreInput, hcall, ih hahead (by omega), hcons]

end Reading

/-! ## 3. Line ends -/

/-- **What the calls return**, wherever the input is cut. -/
theorem delivers_nextChars {readSize : Nat → Nat} (hsize : ∀ n, 0 < readSize n)
    (input : List UInt8) : Delivers readSize input (nextChars false input) :=
  ⟨input.length + 2, fun _ hfuel => chars_ahead hsize (ahead_new input) hfuel⟩

theorem Delivers.unique {readSize : Nat → Nat} {input out out' : List UInt8}
    (h : Delivers readSize input out) (h' : Delivers readSize input out') : out = out' := by
  obtain ⟨m, hm⟩ := h
  obtain ⟨n, hn⟩ := h'
  have hsome := (hm _ (Nat.le_max_left m n)).symm.trans (hn _ (Nat.le_max_right m n))
  exact List.append_cancel_right (Option.some.inj hsome)

theorem not_mem_normalizeLineEnds : ∀ input : List UInt8, 13 ∉ normalizeLineEnds input
  | [] => List.not_mem_nil
  | [c] => by
    by_cases hc : c = 13
    · subst hc
      decide
    · simp [normalizeLineEnds, hc, Ne.symm hc]
  | c :: d :: rest => by
    have ih := not_mem_normalizeLineEnds rest
    have ih' := not_mem_normalizeLineEnds (d :: rest)
    by_cases hc : c = 13
    · by_cases hd : d = 10
      · simp [normalizeLineEnds, hc, hd, ih]
      · simp [normalizeLineEnds, hc, hd, ih']
    · simp [normalizeLineEnds, hc, Ne.symm hc, ih']

/-- A carriage return after the two characters of a line end is returned as it is. -/
theorem mem_nextChars_of_inside : ∀ {input : List UInt8}, [13, 10, 13] <:+: input →
    13 ∈ nextChars false input
  | [], h => by simp at h
  | [c], h => by
    have hlength := h.length_le
    simp at hlength
  | c :: d :: rest, h => by
    have hinfix := List.infix_cons_iff.mp h
    by_cases hc : c = 13
    · subst hc
      by_cases hd : d = 10
      · subst hd
        cases rest with
        | nil =>
          have hlength := h.length_le
          simp at hlength
        | cons e rest =>
          have hskip : nextChars false (13 :: 10 :: e :: rest) = 10 :: e :: nextChars false rest :=
            rfl
          rw [hskip]
          by_cases he : e = 13
          · subst he
            simp
          · have hrest : [13, 10, 13] <:+: rest := by
              simpa [List.infix_cons_iff, List.cons_prefix_cons, he, Ne.symm he] using h
            exact List.mem_cons_of_mem _ (List.mem_cons_of_mem _ (mem_nextChars_of_inside hrest))
      · have hrest : [13, 10, 13] <:+: d :: rest := by
          refine hinfix.resolve_left fun hpre => hd ?_
          have hpre' := (List.cons_prefix_cons.mp hpre).2
          exact (List.cons_prefix_cons.mp hpre').1.symm
        have hflag : nextChars true (d :: rest) = nextChars false (d :: rest) := by
          unfold nextChars
          rw [if_neg hd, if_neg hd]
        rw [nextChars_cr, hflag]
        exact List.mem_cons_of_mem _ (mem_nextChars_of_inside hrest)
    · have hrest : [13, 10, 13] <:+: d :: rest :=
        hinfix.resolve_left fun hpre => hc (List.cons_prefix_cons.mp hpre).1.symm
      have hone : nextChars false (c :: d :: rest) = c :: nextChars false (d :: rest) := by
        by_cases hc' : c = 10
        · subst hc'
          exact nextChars_lf _
        · exact nextChars_cons hc hc' false _
      rw [hone]
      exact List.mem_cons_of_mem _ (mem_nextChars_of_inside hrest)

/-- **When line ends are normalised**, wherever the input is cut. -/
theorem delivers_normalizeLineEnds_iff {readSize : Nat → Nat} (hsize : ∀ n, 0 < readSize n)
    (input : List UInt8) :
    Delivers readSize input (normalizeLineEnds input) ↔ ¬[13, 10, 13] <:+: input := by
  have hdelivers := delivers_nextChars hsize input
  constructor
  · intro h hin
    have hmem := mem_nextChars_of_inside hin
    rw [← h.unique hdelivers] at hmem
    exact not_mem_normalizeLineEnds input hmem
  · intro h
    rw [← QDParser.nextChars_eq h]
    exact hdelivers

/-- A line end of two characters, in a buffer for one. -/
theorem delivers_normalizeLineEnds_cut :
    Delivers (fun _ => 1) [97, 13, 10, 98] (normalizeLineEnds [97, 13, 10, 98]) :=
  (delivers_normalizeLineEnds_iff (fun _ => Nat.one_pos) _).mpr (by decide)

/-- Of two such line ends the second one becomes two characters. -/
theorem not_delivers_blank_line :
    ¬Delivers (fun _ => 32 * 1024) [13, 10, 13, 10] (normalizeLineEnds [13, 10, 13, 10]) := by
  intro h
  have heq := h.unique (delivers_nextChars (fun _ => by decide) [13, 10, 13, 10])
  exact absurd heq (by decide)

end CharInput

end Emdros
