/-
# JSON on an output stream (`emdf_output.h`, `emdf_output.cpp`)

`EMdFOutput` writes JSON piece by piece: brackets, labels and values are calls of their own, and
between the calls one flag remembers whether a comma is due.  `jsonOutValue` does not look at the
flag.  Who writes a scalar into an array calls `optComma` before it, as `Table::printJSONRow` does.

`text_denotes` says that the calls for a tree write a document that denotes it.  Without the calls
of `optComma` they do not, and neither do they if a string has a control character that is not
escaped, or is not written in UTF-8 (`not_text_denotes`).
-/
import Emdros.Base.JsonText
import Emdros.EMdF.Value

namespace Emdros

open Lexer (bytes)
open JsonText (Tree StringBody ws separated)
open String (utf8EncodeChar)

inductive eOutputKind where
  | kOKXML
  | kOKConsole
  | kOKCompactXML
  | kOKJSON
  | kOKCompactJSON
  deriving DecidableEq

/-- `EMdFOutput`, with what was written to its stream. -/
structure EMdFOutput where
  outputKind : eOutputKind
  stream : List UInt8
  currentIndent : Int
  indentChars : Int
  emitComma : Bool

namespace EMdFOutput

/-! ## 1. The stream -/

/-- The constructor; `stream` is empty. -/
def new (outputKind : eOutputKind) (indentChars : Int) : EMdFOutput :=
  ⟨outputKind, [], 0, indentChars, false⟩

def out (s : List UInt8) (p : EMdFOutput) : EMdFOutput := { p with stream := p.stream ++ s }

/-- `m_emit_comma = b`. -/
def setEmitComma (b : Bool) (p : EMdFOutput) : EMdFOutput := { p with emitComma := b }

/-- Is the indent counted and written? -/
def indents (p : EMdFOutput) : Bool := p.outputKind = .kOKXML ∨ p.outputKind = .kOKJSON

def increaseIndent (p : EMdFOutput) : EMdFOutput :=
  if p.indents then { p with currentIndent := p.currentIndent + 1 } else p

/-- The assertion that the indent is not below 0 is `none`. -/
def decreaseIndent (p : EMdFOutput) : Option EMdFOutput :=
  if p.indents then
    let p := { p with currentIndent := p.currentIndent - 1 }
    if 0 ≤ p.currentIndent then some p else none
  else some p

def newline (p : EMdFOutput) : EMdFOutput :=
  let p := p.out [10]
  if p.indents then p.out (List.replicate (p.currentIndent * p.indentChars).toNat 32) else p

def space (p : EMdFOutput) : EMdFOutput := if p.outputKind = .kOKJSON then p.out [32] else p

def optComma (p : EMdFOutput) : EMdFOutput :=
  if p.emitComma then
    let p := p.out [44]
    if p.outputKind = .kOKJSON then p.newline else p
  else p

/-! ## 2. Brackets, labels and values -/

/-- What `jsonStartStruct` and `jsonStartArray` do with their bracket. -/
def jsonStart (bracket : UInt8) (p : EMdFOutput) : EMdFOutput :=
  let p := p.optComma.out [bracket]
  let p := if p.outputKind = .kOKJSON then p.increaseIndent.newline else p
  p.setEmitComma false

def jsonStartStruct : EMdFOutput → EMdFOutput := jsonStart 123

def jsonStartArray : EMdFOutput → EMdFOutput := jsonStart 91

def jsonLabel (name : List UInt8) (p : EMdFOutput) : EMdFOutput :=
  let p := (((p.optComma.out [34]).out name).out [34, 58]).space
  p.setEmitComma false

/-- What `jsonEndStruct` and `jsonEndArray` do with their bracket. -/
def jsonEnd (bracket : UInt8) (p : EMdFOutput) : Option EMdFOutput :=
  (if p.outputKind = .kOKJSON then p.decreaseIndent.map newline else some p).map fun p =>
    (p.out [bracket]).setEmitComma true

def jsonEndStruct : EMdFOutput → Option EMdFOutput := jsonEnd 125

def jsonEndArray : EMdFOutput → Option EMdFOutput := jsonEnd 93

/-- A byte of a string, as `jsonOutValue` writes it. -/
def escapeByte (p : UInt8) : List UInt8 :=
  if p = 47 then [92, 47]
  else if p = 34 then [92, 34]
  else if p = 92 then [92, 92]
  else if p = 10 then [92, 110]
  else [p]

/-- `jsonOutValue(const std::string&)`. -/
def jsonOutString (s : List UInt8) (p : EMdFOutput) : EMdFOutput :=
  let p := p.out [34]
  let p := if s.any fun c => c ∈ [47, 34, 92, 10] then p.out (s.flatMap escapeByte) else p.out s
  (p.out [34]).setEmitComma true

/-- `jsonOutValue(bool)`. -/
def jsonOutBool (b : Bool) (p : EMdFOutput) : EMdFOutput :=
  (p.out (if b then bytes "true" else bytes "false")).setEmitComma true

/-- `jsonOutValue()`. -/
def jsonOutNull (p : EMdFOutput) : EMdFOutput := (p.out (bytes "null")).setEmitComma true

/-- `jsonOutValue(emdf_ivalue)`. -/
def jsonOutIvalue (i : Int) (p : EMdFOutput) : EMdFOutput :=
  (p.out (longlong2string i)).setEmitComma true

/-! ## 3. The calls for a tree -/

inductive Call where
  | optComma
  | jsonStartStruct
  | jsonLabel (name : List UInt8)
  | jsonEndStruct
  | jsonStartArray
  | jsonEndArray
  | jsonOutString (s : List UInt8)
  | jsonOutBool (b : Bool)
  | jsonOutNull
  | jsonOutIvalue (i : Int)

def call (p : EMdFOutput) : Call → Option EMdFOutput
  | .optComma => some p.optComma
  | .jsonStartStruct => some p.jsonStartStruct
  | .jsonLabel name => some (p.jsonLabel name)
  | .jsonEndStruct => p.jsonEndStruct
  | .jsonStartArray => some p.jsonStartArray
  | .jsonEndArray => p.jsonEndArray
  | .jsonOutString s => some (p.jsonOutString s)
  | .jsonOutBool b => some (p.jsonOutBool b)
  | .jsonOutNull => some p.jsonOutNull
  | .jsonOutIvalue i => some (p.jsonOutIvalue i)

/-- One call after the other. -/
def callEach (p : EMdFOutput) : List Call → Option EMdFOutput
  | [] => some p
  | c :: calls => (p.call c).bind fun p => p.callEach calls

theorem callEach_append (p : EMdFOutput) (cs ds : List Call) :
    p.callEach (cs ++ ds) = (p.callEach cs).bind fun p => p.callEach ds := by
  induction cs generalizing p with
  | nil => rfl
  | cons c cs ih =>
    rw [List.cons_append, callEach, callEach, Option.bind_assoc]
    exact congrArg _ (funext fun p => ih p)

def isScalar : Tree → Bool
  | .arr _ => false
  | .obj _ => false
  | _ => true

mutual

/-- The calls that write a tree.  With `sep`, the caller asks for the comma before a scalar that is
not the first element of an array; without, these are the calls of the tree's parts only. -/
def calls (sep : Bool) : Tree → List Call
  | .str s => [.jsonOutString s]
  | .int i => [.jsonOutIvalue i]
  | .bool b => [.jsonOutBool b]
  | .null => [.jsonOutNull]
  | .arr elements => .jsonStartArray :: (elementCalls sep true elements ++ [.jsonEndArray])
  | .obj members => .jsonStartStruct :: (memberCalls sep members ++ [.jsonEndStruct])

def elementCalls (sep first : Bool) : List Tree → List Call
  | [] => []
  | e :: elements =>
    (if sep && !first && isScalar e then [.optComma] else []) ++ calls sep e ++
      elementCalls sep false elements

def memberCalls (sep : Bool) : List (List UInt8 × Tree) → List Call
  | [] => []
  | (label, e) :: members => .jsonLabel label :: calls sep e ++ memberCalls sep members

end

/-- What a new `EMdFOutput` has written after the calls for a tree. -/
def text (outputKind : eOutputKind) (indentChars : Int) (sep : Bool) (t : Tree) :
    Option (List UInt8) :=
  ((new outputKind indentChars).callEach (calls sep t)).map stream

/-! ## 4. Scalars -/

/-- Only 0 is written with 0 as the first digit. -/
theorem longlong2szLoop_head : ∀ {n room : Nat} {v : Int} (p : List UInt8), n < room →
    v.natAbs < 10 ^ (n + 1) → ∃ d < 10, ∃ rest,
      longlong2szLoop room v p = UInt8.ofNat (48 + d) :: rest ∧ (d = 0 → v = 0) := by
  intro n
  induction n with
  | zero =>
    intro room v p hroom hv
    obtain ⟨room, rfl⟩ := Nat.exists_eq_succ_of_ne_zero (Nat.ne_of_gt hroom)
    have hquot : v.tdiv 10 = 0 := (tdiv_eq_zero_iff v).mpr hv
    refine ⟨v.natAbs % 10, Nat.mod_lt _ (by decide), p, ?_, by omega⟩
    rw [longlong2szLoop, digit_tmod, if_pos hquot]
  | succ n ih =>
    intro room v p hroom hv
    obtain ⟨room, rfl⟩ := Nat.exists_eq_succ_of_ne_zero (Nat.ne_of_gt (Nat.zero_lt_of_lt hroom))
    rw [longlong2szLoop, digit_tmod]
    split
    · rename_i hquot
      have hlt : v.natAbs < 10 := (tdiv_eq_zero_iff v).mp hquot
      exact ⟨v.natAbs % 10, Nat.mod_lt _ (by decide), p, rfl, by omega⟩
    · rename_i hquot
      have hlt : (v.tdiv 10).natAbs < 10 ^ (n + 1) := by
        rw [Int.natAbs_tdiv]
        exact Nat.div_lt_of_lt_mul (by rwa [Nat.pow_succ, Nat.mul_comm] at hv)
      obtain ⟨d, hd, rest, hloop, hzero⟩ :=
        ih (UInt8.ofNat (48 + v.natAbs % 10) :: p) (Nat.lt_of_succ_lt_succ hroom) hlt
      exact ⟨d, hd, rest, hloop, fun h => absurd (hzero h) hquot⟩

/-- `sz2longlongDigits` on digits, as a number that is not negative. -/
theorem sz2longlongDigits_foldl {ds : List UInt8} : ∀ r : Nat, (∀ c ∈ ds, IsDecimal c) →
    sz2longlongDigits r ds = (ds.foldl (fun v c => v * 10 + (c.toNat - 48)) r : Nat) := by
  induction ds with
  | nil => exact fun _ _ => rfl
  | cons c ds ih =>
    intro r hds
    obtain ⟨d, hd, rfl⟩ := hds c List.mem_cons_self
    have hstep : (r : Int) * 10 + d = (r * 10 + (48 + d - 48) : Nat) := by
      push_cast
      omega
    rw [sz2longlongDigits_cons _ hd, hstep, ih _ fun c hc => hds c (List.mem_cons_of_mem _ hc),
      List.foldl_cons, toNat_digit hd]

/-- **Numbers are written as JSON writes them.** -/
theorem longlong2string_mem_number {i : Int} (hi : IsIvalue i) :
    longlong2string i ∈ JsonText.number i := by
  obtain ⟨ds, htext, hne, hds, hvalue⟩ := longlong2string_spec hi.digits
  have hnatural : JsonText.IsNatural ds i.natAbs := by
    refine ⟨hne, fun c hc => (hds c hc).bounds, ?_, ?_⟩
    · intro hhead
      obtain ⟨d, hd, rest, hloop, hzero⟩ :=
        longlong2szLoop_head (n := 9) [] (by decide : 9 < 29) hi.digits
      have hds' : ds = longlong2szLoop 29 i [] := by
        rw [longlong2string] at htext
        split at htext
        · exact (List.cons_eq_cons.mp htext).2.symm
        · exact htext.symm
      rw [hds', hloop, List.head?_cons, Option.some_inj] at hhead
      have hd0 : d = 0 := by
        have htoNat := congrArg UInt8.toNat hhead
        rw [toNat_digit hd] at htoNat
        change 48 + d = 48 at htoNat
        omega
      rw [hds', hzero hd0]
      rfl
    · have hfold := sz2longlongDigits_foldl 0 hds
      rw [Nat.cast_zero, hvalue] at hfold
      exact (Int.ofNat.inj hfold).symm
  refine ⟨ds, i.natAbs, hnatural, ?_⟩
  rw [htext]
  split
  · exact Or.inr ⟨rfl, by omega⟩
  · exact Or.inl ⟨rfl, by omega⟩

/-- `s` is written in UTF-8, and a line feed is all it has of control characters. -/
def IsPlainText (s : List UInt8) : Prop :=
  (∃ chars : List Char, s = chars.flatMap utf8EncodeChar) ∧ ∀ c ∈ s, c.toNat < 32 → c = 10

theorem flatMap_escapeByte_eq_self {s : List UInt8}
    (h : ∀ c ∈ s, c ∉ ([47, 34, 92, 10] : List UInt8)) : s.flatMap escapeByte = s := by
  induction s with
  | nil => rfl
  | cons c s ih =>
    have hc := h c List.mem_cons_self
    simp only [List.mem_cons, List.not_mem_nil, or_false, not_or] at hc
    obtain ⟨h₁, h₂, h₃, h₄⟩ := hc
    rw [List.flatMap_cons, ih fun d hd => h d (List.mem_cons_of_mem _ hd), escapeByte, if_neg h₁,
      if_neg h₂, if_neg h₃, if_neg h₄]
    rfl

/-- The test whether there is something to escape changes nothing. -/
theorem jsonOutString_eq (s : List UInt8) (p : EMdFOutput) :
    p.jsonOutString s = (p.out (34 :: (s.flatMap escapeByte ++ [34]))).setEmitComma true := by
  have hany : (s.any fun c => c ∈ [47, 34, 92, 10]) = false → s.flatMap escapeByte = s := by
    intro h
    refine flatMap_escapeByte_eq_self fun c hc hmem => ?_
    exact List.any_eq_false.mp h c hc (decide_eq_true hmem)
  have hbody : ∀ q : EMdFOutput, (if s.any fun c => c ∈ [47, 34, 92, 10] then
      q.out (s.flatMap escapeByte) else q.out s) = q.out (s.flatMap escapeByte) := by
    intro q
    split
    · rfl
    · rename_i h
      rw [hany (Bool.not_eq_true _ ▸ h)]
  dsimp only [jsonOutString]
  rw [hbody]
  simp [out]

theorem utf8EncodeChar_cases (c : Char) :
    c.toNat < 128 ∧ utf8EncodeChar c = [UInt8.ofNat c.toNat] ∨
      128 ≤ c.toNat ∧ ∀ b ∈ utf8EncodeChar c, 128 ≤ b.toNat := by
  change c.val.toNat < 128 ∧ _ ∨ 128 ≤ c.val.toNat ∧ _
  have hmax : c.val.toNat < 0x110000 := by
    rcases c.valid with h | h <;> omega
  unfold utf8EncodeChar
  by_cases hlt : c.val.toNat < 128
  · exact Or.inl ⟨hlt, if_pos (Nat.le_of_lt_succ hlt)⟩
  · refine Or.inr ⟨Nat.le_of_not_lt hlt, fun b hb => ?_⟩
    dsimp only at hb
    rw [if_neg (by omega)] at hb
    split at hb
    · rcases List.mem_pair.mp hb with rfl | rfl <;> rw [UInt8.toNat_ofNat'] <;> omega
    · split at hb <;> simp only [List.mem_cons, List.not_mem_nil, or_false] at hb
      · rcases hb with rfl | rfl | rfl <;> rw [UInt8.toNat_ofNat'] <;> omega
      · rcases hb with rfl | rfl | rfl | rfl <;> rw [UInt8.toNat_ofNat'] <;> omega

/-- Only bytes of ASCII are escaped. -/
theorem escapeByte_of_ge {c : UInt8} (h : 128 ≤ c.toNat) : escapeByte c = [c] := by
  have hne : ∀ d : UInt8, d.toNat < 128 → c ≠ d := by
    rintro d hd rfl
    omega
  rw [escapeByte, if_neg (hne 47 (by decide)), if_neg (hne 34 (by decide)),
    if_neg (hne 92 (by decide)), if_neg (hne 10 (by decide))]

/-- A byte of ASCII that is no control character, or is a line feed, stands for itself. -/
theorem stringBody_escapeByte {c : Char} (hc : c.toNat < 128) (hplain : c.toNat < 32 → c.toNat = 10)
    {raw s : List UInt8} (h : StringBody raw s) :
    StringBody (escapeByte (UInt8.ofNat c.toNat) ++ raw) (UInt8.ofNat c.toNat :: s) := by
  have hutf8 : utf8EncodeChar c = [UInt8.ofNat c.toNat] := by
    rcases utf8EncodeChar_cases c with ⟨-, h⟩ | ⟨hge, -⟩
    · exact h
    · omega
  have hval : (UInt8.ofNat c.toNat).toNat = c.toNat := by
    rw [UInt8.toNat_ofNat']
    omega
  unfold escapeByte
  split
  · rename_i heq
    exact heq ▸ StringBody.escaped 47 47 (by simp [JsonText.escapes]) h
  split
  · rename_i heq
    exact heq ▸ StringBody.escaped 34 34 (by simp [JsonText.escapes]) h
  split
  · rename_i heq
    exact heq ▸ StringBody.escaped 92 92 (by simp [JsonText.escapes]) h
  split
  · rename_i heq
    exact heq ▸ StringBody.escaped 110 10 (by simp [JsonText.escapes]) h
  · rename_i hquote hbackslash hlf
    have hne : ∀ d : UInt8, UInt8.ofNat c.toNat ≠ d → c.toNat ≠ d.toNat := fun d hd heq =>
      hd (UInt8.toNat_inj.mp (hval.trans heq))
    have hcontrol : 0x20 ≤ c.toNat := by
      by_contra hlt
      exact hne 10 hlf (hplain (by omega))
    have hraw := StringBody.unescaped c hcontrol (hne 34 hquote) (hne 92 hbackslash) h
    rwa [hutf8] at hraw

/-- **What is escaped is read back.** -/
theorem stringBody_escape {s : List UInt8} (hs : IsPlainText s) :
    StringBody (s.flatMap escapeByte) s := by
  obtain ⟨⟨chars, rfl⟩, hplain⟩ := hs
  induction chars with
  | nil => exact StringBody.nil
  | cons c chars ih =>
    rw [List.flatMap_cons] at hplain ⊢
    have hrest := ih fun d hd => hplain d (List.mem_append_right _ hd)
    rcases utf8EncodeChar_cases c with ⟨hlt, hutf8⟩ | ⟨hge, hbytes⟩
    · rw [hutf8, List.singleton_append, List.flatMap_cons]
      refine stringBody_escapeByte hlt (fun hcontrol => ?_) hrest
      have hval : (UInt8.ofNat c.toNat).toNat = c.toNat := by
        rw [UInt8.toNat_ofNat']
        omega
      have hlf := congrArg UInt8.toNat
        (hplain (UInt8.ofNat c.toNat) (by simp [hutf8]) (by rwa [hval]))
      rwa [hval] at hlf
    · have hself : (utf8EncodeChar c).flatMap escapeByte = utf8EncodeChar c := by
        rw [List.flatMap_congr fun b hb => escapeByte_of_ge (hbytes b hb),
          List.flatMap_singleton']
      rw [List.flatMap_append, hself]
      exact StringBody.unescaped c (by omega) (by omega) (by omega) hrest

/-! ## 5. What the calls write -/

/-- The two kinds of JSON, at a level that is not below 0. -/
structure WritesJson (p : EMdFOutput) : Prop where
  kind : p.outputKind = .kOKJSON ∨ p.outputKind = .kOKCompactJSON
  indent : 0 ≤ p.currentIndent

section

variable (s s' : List UInt8) (b b' : Bool) (p : EMdFOutput)

@[simp] theorem out_nil : p.out [] = p := by simp [out]

@[simp] theorem out_out : (p.out s).out s' = p.out (s ++ s') := by simp [out]

@[simp] theorem out_setEmitComma : (p.setEmitComma b).out s = (p.out s).setEmitComma b := rfl

@[simp] theorem setEmitComma_setEmitComma :
    (p.setEmitComma b).setEmitComma b' = p.setEmitComma b' := rfl

@[simp] theorem outputKind_out : (p.out s).outputKind = p.outputKind := rfl

@[simp] theorem indents_out : (p.out s).indents = p.indents := rfl

@[simp] theorem increaseIndent_out : (p.out s).increaseIndent = p.increaseIndent.out s := by
  unfold increaseIndent
  rw [indents_out]
  split <;> rfl

@[simp] theorem outputKind_increaseIndent : p.increaseIndent.outputKind = p.outputKind := by
  unfold increaseIndent
  split <;> rfl

end

theorem newline_eq (p : EMdFOutput) : ∃ w ∈ ws, p.newline = p.out w := by
  have hlf : [10] ∈ ws := by
    intro c hc
    exact Or.inr (Or.inr (Or.inl (List.mem_singleton.mp hc)))
  dsimp only [newline]
  split
  · refine ⟨_, JsonText.append_mem_ws hlf fun c hc => ?_, out_out _ _ _⟩
    exact Or.inl (List.eq_of_mem_replicate hc)
  · exact ⟨_, hlf, rfl⟩

/-- The comma that is due, with white space. -/
theorem optComma_eq (p : EMdFOutput) :
    ∃ w ∈ ws, p.optComma = p.out (if p.emitComma then 44 :: w else []) := by
  dsimp only [optComma]
  by_cases hcomma : p.emitComma = true
  · rw [if_pos hcomma, outputKind_out]
    split
    · obtain ⟨w, hw, hnewline⟩ := (p.out [44]).newline_eq
      exact ⟨w, hw, by rw [hnewline, out_out]; rfl⟩
    · exact ⟨[], JsonText.nil_mem_ws, rfl⟩
  · exact ⟨[], JsonText.nil_mem_ws, by rw [if_neg hcomma, if_neg hcomma, out_nil]⟩

theorem WritesJson.indents {p : EMdFOutput} (hp : p.WritesJson) :
    p.indents = decide (p.outputKind = .kOKJSON) := by
  rcases hp.kind with h | h <;> simp [EMdFOutput.indents, h]

theorem jsonStart_eq {p : EMdFOutput} (hp : p.WritesJson) (bracket : UInt8) : ∃ w ∈ ws,
    p.jsonStart bracket =
      (p.optComma.increaseIndent.out (bracket :: w)).setEmitComma false := by
  obtain ⟨v, -, hcomma⟩ := p.optComma_eq
  dsimp only [jsonStart]
  rw [hcomma, out_out, outputKind_out]
  split
  · obtain ⟨w, hw, hnewline⟩ :=
      newline_eq (p.out ((if p.emitComma then 44 :: v else []) ++ [bracket])).increaseIndent
    refine ⟨w, hw, ?_⟩
    rw [hnewline, increaseIndent_out, increaseIndent_out, out_out, out_out, List.append_assoc]
    rfl
  · rename_i hkind
    refine ⟨[], JsonText.nil_mem_ws, ?_⟩
    have hstill : p.increaseIndent = p := by
      rw [increaseIndent, hp.indents, decide_eq_false hkind, if_neg Bool.false_ne_true]
    rw [increaseIndent_out, hstill, out_out]

/-- What was opened is closed one level further out. -/
theorem jsonEnd_eq {p : EMdFOutput} (hp : p.WritesJson) (bracket : UInt8) (x : List UInt8)
    (b : Bool) : ∃ w ∈ ws,
      jsonEnd bracket ((p.increaseIndent.out x).setEmitComma b) =
        some ((p.out (x ++ (w ++ [bracket]))).setEmitComma true) := by
  have hindents := hp.indents
  by_cases hkind : p.outputKind = .kOKJSON
  · rw [hkind, decide_eq_true rfl] at hindents
    have hdecrease : decreaseIndent ((p.increaseIndent.out x).setEmitComma b) =
        some ((p.out x).setEmitComma b) := by
      have hback : p.currentIndent + 1 - 1 = p.currentIndent := Int.add_sub_cancel _ _
      have hpos := hp.indent
      simp [decreaseIndent, increaseIndent, EMdFOutput.indents, out, setEmitComma, hkind, hback,
        hpos]
    obtain ⟨w, hw, hnewline⟩ := newline_eq ((p.out x).setEmitComma b)
    refine ⟨w, hw, ?_⟩
    rw [jsonEnd, if_pos (by simpa [setEmitComma] using hkind), hdecrease, Option.map_some,
      hnewline]
    simp
  · rw [decide_eq_false hkind] at hindents
    refine ⟨[], JsonText.nil_mem_ws, ?_⟩
    rw [jsonEnd, if_neg (by simpa [setEmitComma] using hkind), increaseIndent, hindents,
      if_neg Bool.false_ne_true]
    simp

theorem jsonLabel_eq (p : EMdFOutput) (name : List UInt8) : ∃ w ∈ ws,
    p.jsonLabel name = (p.optComma.out (34 :: (name ++ [34, 58]) ++ w)).setEmitComma false := by
  dsimp only [jsonLabel, space]
  split
  · refine ⟨[32], fun c hc => Or.inl (List.mem_singleton.mp hc), ?_⟩
    simp
  · refine ⟨[], JsonText.nil_mem_ws, ?_⟩
    simp

theorem WritesJson.out {p : EMdFOutput} (hp : p.WritesJson) (s : List UInt8) :
    (p.out s).WritesJson := ⟨hp.kind, hp.indent⟩

theorem WritesJson.setEmitComma {p : EMdFOutput} (hp : p.WritesJson) (b : Bool) :
    (p.setEmitComma b).WritesJson := ⟨hp.kind, hp.indent⟩

theorem WritesJson.increaseIndent {p : EMdFOutput} (hp : p.WritesJson) :
    p.increaseIndent.WritesJson := by
  refine ⟨by simpa using hp.kind, ?_⟩
  have hindent := hp.indent
  unfold EMdFOutput.increaseIndent
  split
  · exact Int.add_nonneg hindent (by decide)
  · exact hindent

/-- The calls write a text of the language, after a comma if one is due.  They may depend on
whether it is. -/
def WritesItem (cs : Bool → List Call) (L : Language UInt8) : Prop :=
  ∀ p : EMdFOutput, p.WritesJson → ∃ w ∈ ws, ∃ s ∈ L, p.callEach (cs (!p.emitComma)) =
    some ((p.out ((if p.emitComma then 44 :: w else []) ++ s)).setEmitComma true)

section Items

variable {α : Type*} (cs : Bool → α → List Call)

/-- The calls of items in turn. -/
def itemCalls (first : Bool) : List α → List Call
  | [] => []
  | a :: items => cs first a ++ itemCalls false items

variable {cs} {L : α → Language UInt8} {items : List α} {p : EMdFOutput}

/-- **Items in turn are separated**, by induction on what is still to be written. -/
theorem callEach_itemCalls (h : ∀ a ∈ items, WritesItem (fun first => cs first a) (L a))
    (hp : p.WritesJson) (Ls : List (Language UInt8)) {x : List UInt8} (hx : x ∈ separated Ls) :
    ∃ y ∈ separated (Ls ++ items.map L),
      ((p.out x).setEmitComma (!Ls.isEmpty)).callEach (itemCalls cs Ls.isEmpty items) =
        some ((p.out y).setEmitComma (!(Ls ++ items.map L).isEmpty)) := by
  induction items generalizing Ls x with
  | nil => exact ⟨x, by simpa using hx, by simp [itemCalls, callEach]⟩
  | cons a items ih =>
    obtain ⟨w, hw, s, hs, hcall⟩ := h a List.mem_cons_self
      ((p.out x).setEmitComma (!Ls.isEmpty)) ((hp.out x).setEmitComma _)
    have hone := JsonText.mem_separated_concat hx hw hs
    obtain ⟨y, hy, hrest⟩ := ih (fun b hb => h b (List.mem_cons_of_mem a hb)) _ hone
    refine ⟨y, by simpa using hy, ?_⟩
    have hempty : (Ls ++ [L a]).isEmpty = false := by simp
    have hcomma : ((p.out x).setEmitComma (!Ls.isEmpty)).emitComma = !Ls.isEmpty := rfl
    rw [hcomma, Bool.not_not] at hcall
    rw [hempty, Bool.not_false] at hrest
    have hif : (if (!Ls.isEmpty) = true then 44 :: w else []) =
        if Ls.isEmpty then [] else 44 :: w := by
      cases Ls.isEmpty <;> rfl
    rw [itemCalls, callEach_append, hcall, Option.bind_some, out_setEmitComma,
      setEmitComma_setEmitComma, out_out, hif, hrest, List.append_assoc, List.singleton_append,
      List.map_cons]

/-- Items between brackets. -/
theorem writesItem_brackets (h : ∀ a ∈ items, WritesItem (fun first => cs first a) (L a))
    (start finish : Call) (b b' : UInt8)
    (hstart : ∀ p : EMdFOutput, p.call start = some (p.jsonStart b))
    (hfinish : ∀ p : EMdFOutput, p.call finish = p.jsonEnd b') :
    WritesItem (fun _ => start :: (itemCalls cs true items ++ [finish]))
      ({[b]} * separated (items.map L) * {[b']}) := by
  intro p hp
  obtain ⟨v, hv, hcomma⟩ := p.optComma_eq
  obtain ⟨w, hw, hopen⟩ := jsonStart_eq hp b
  obtain ⟨y, hy, hitems⟩ := callEach_itemCalls h
    (hp.increaseIndent.out ((if p.emitComma then 44 :: v else []) ++ [b])) [] hw
  obtain ⟨w', hw', hclose⟩ := jsonEnd_eq hp b'
    ((if p.emitComma then 44 :: v else []) ++ [b] ++ y) (!(items.map L).isEmpty)
  have hbody : y ++ w' ∈ separated (items.map L) := by
    rw [← JsonText.separated_mul_ws]
    exact Language.append_mem_mul hy hw'
  refine ⟨v, hv, [b] ++ (y ++ w') ++ [b'],
    Language.append_mem_mul (Language.append_mem_mul rfl hbody) rfl, ?_⟩
  have hopen' : p.jsonStart b = ((p.increaseIndent.out
      ((if p.emitComma then 44 :: v else []) ++ [b])).out w).setEmitComma
        (!([] : List (Language UInt8)).isEmpty) := by
    rw [hopen, hcomma, increaseIndent_out, out_out, out_out, List.append_assoc]
    rfl
  rw [callEach, hstart, Option.bind_some, callEach_append, hopen']
  rw [List.isEmpty_nil] at hitems ⊢
  rw [hitems, Option.bind_some, callEach, hfinish, out_out, List.nil_append, hclose]
  simp [callEach, List.append_assoc]

end Items

/-! ## 6. Trees -/

/-- A tree that `EMdFOutput` can write: the labels do not need escapes, the integers are
`emdf_ivalue`s, and the strings are plain text. -/
inductive Printable : Tree → Prop where
  | str {s} (h : IsPlainText s) : Printable (.str s)
  | int {i} (h : IsIvalue i) : Printable (.int i)
  | bool (b) : Printable (.bool b)
  | null : Printable .null
  | arr {elements} (h : ∀ e ∈ elements, Printable e) : Printable (.arr elements)
  | obj {members} (hlabels : ∀ m ∈ members, StringBody m.1 m.1)
      (h : ∀ m ∈ members, Printable m.2) : Printable (.obj members)

/-- The calls for an element of an array. -/
def itemCall (first : Bool) (e : Tree) : List Call :=
  (if true && !first && isScalar e then [.optComma] else []) ++ calls true e

theorem elementCalls_eq (elements : List Tree) (first : Bool) :
    elementCalls true first elements = itemCalls itemCall first elements := by
  induction elements generalizing first with
  | nil => rfl
  | cons e elements ih => rw [elementCalls, itemCalls, ih]; rfl

theorem memberCalls_eq (members : List (List UInt8 × Tree)) (first : Bool) :
    memberCalls true members =
      itemCalls (fun _ m => .jsonLabel m.1 :: calls true m.2) first members := by
  induction members generalizing first with
  | nil => rfl
  | cons m members ih => rw [memberCalls, itemCalls, ih false]

/-- A call that only writes, for which the comma is asked for. -/
theorem writesItem_scalar {c : Call} {s : List UInt8} {L : Language UInt8} (hs : s ∈ L)
    (hc : ∀ p : EMdFOutput, p.call c = some ((p.out s).setEmitComma true)) :
    WritesItem (fun first => (if true && !first && true then [.optComma] else []) ++ [c]) L := by
  intro p hp
  obtain ⟨w, hw, hcomma⟩ := p.optComma_eq
  refine ⟨w, hw, s, hs, ?_⟩
  by_cases hp : p.emitComma = true
  · rw [if_pos hp] at hcomma
    have hfirst : p.call .optComma = some (p.out (44 :: w)) := congrArg some hcomma
    simp [callEach, hp, hfirst, hc]
  · rw [Bool.not_eq_true] at hp
    simp [callEach, hp, hc]

/-- A label and what is written after it. -/
theorem writesItem_member {label : List UInt8} {e : Tree} (hlabel : StringBody label label)
    (he : WritesItem (fun first => itemCall first e) e.texts) :
    WritesItem (fun _ => .jsonLabel label :: calls true e)
      (JsonText.string label * ws * {[58]} * ws * e.texts) := by
  intro p hp
  obtain ⟨v, hv, hcomma⟩ := p.optComma_eq
  obtain ⟨w, hw, hname⟩ := p.jsonLabel_eq label
  rw [hcomma, out_out] at hname
  obtain ⟨_, _, s, hs, hcall⟩ := he (p.jsonLabel label) (by
    rw [hname]
    exact (hp.out _).setEmitComma _)
  have htext : 34 :: (label ++ [34]) ∈ JsonText.string label := ⟨label, hlabel, rfl⟩
  refine ⟨v, hv, 34 :: (label ++ [34]) ++ [] ++ [58] ++ w ++ s, Language.append_mem_mul
    (Language.append_mem_mul (Language.append_mem_mul (Language.append_mem_mul htext
      JsonText.nil_mem_ws) rfl) hw) hs, ?_⟩
  have hfirst : itemCall (!(p.jsonLabel label).emitComma) e = calls true e := by
    rw [hname]
    rfl
  have hnone : (p.jsonLabel label).emitComma = false := by
    rw [hname]
    rfl
  beta_reduce at hcall
  rw [hfirst, hnone, if_neg Bool.false_ne_true, List.nil_append, hname] at hcall
  rw [callEach, call, Option.bind_some, hname, hcall]
  simp

/-- **Every tree is written as one of its texts.** -/
theorem writesItem_itemCall {t : Tree} (h : Printable t) :
    WritesItem (fun first => itemCall first t) t.texts := by
  induction h with
  | str hs =>
    exact writesItem_scalar ⟨_, stringBody_escape hs, rfl⟩ fun p =>
      congrArg some (jsonOutString_eq _ p)
  | int hi => exact writesItem_scalar (longlong2string_mem_number hi) fun _ => rfl
  | bool b => cases b <;> exact writesItem_scalar rfl fun _ => rfl
  | null => exact writesItem_scalar rfl fun _ => rfl
  | @arr elements _ ih =>
    have hbrackets := writesItem_brackets ih .jsonStartArray .jsonEndArray 91 93 (fun _ => rfl) (fun _ => rfl)
    have hcalls : (fun first => itemCall first (.arr elements)) = fun _ =>
        .jsonStartArray :: (itemCalls itemCall true elements ++ [.jsonEndArray]) := by
      funext first
      simp [itemCall, isScalar, calls, elementCalls_eq]
    rw [hcalls, Tree.texts, JsonText.elementTexts_eq_map]
    exact hbrackets
  | @obj members hlabels _ ih =>
    have hbrackets := writesItem_brackets (fun m hm => writesItem_member (hlabels m hm) (ih m hm))
      .jsonStartStruct .jsonEndStruct 123 125 (fun _ => rfl) (fun _ => rfl)
    have hcalls : (fun first => itemCall first (.obj members)) = fun _ =>
        .jsonStartStruct :: (itemCalls (fun _ m => .jsonLabel m.1 :: calls true m.2) true members ++
          [.jsonEndStruct]) := by
      funext first
      simp [itemCall, isScalar, calls, memberCalls_eq members true]
    rw [hcalls, Tree.texts, JsonText.memberTexts_eq_map]
    exact hbrackets

/-- **What is written denotes the tree.** -/
theorem text_denotes {outputKind : eOutputKind}
    (hkind : outputKind = .kOKJSON ∨ outputKind = .kOKCompactJSON) (indentChars : Int) {t : Tree}
    (h : Printable t) : ∃ s ∈ t.document, text outputKind indentChars true t = some s := by
  obtain ⟨_, _, s, hs, hcall⟩ := writesItem_itemCall h (new outputKind indentChars)
    ⟨hkind, le_refl 0⟩
  refine ⟨[] ++ s ++ [], Language.append_mem_mul (Language.append_mem_mul JsonText.nil_mem_ws hs)
    JsonText.nil_mem_ws, ?_⟩
  have hcalls : itemCall (!(new outputKind indentChars).emitComma) t = calls true t := by
    simp [itemCall, new]
  beta_reduce at hcall
  rw [hcalls] at hcall
  rw [text, hcall]
  simp [out, setEmitComma, new]

/-- A list of numbers in an object, with a string that is escaped. -/
theorem text_denotes_three :
    ∃ s ∈ (Tree.obj [([97], .arr [.int 1, .int (-20), .arr [], .str [47, 10]])]).document,
      text .kOKJSON 3 true (.obj [([97], .arr [.int 1, .int (-20), .arr [], .str [47, 10]])]) =
        some s :=
  text_denotes (Or.inl rfl) 3 (.obj
    (List.forall_mem_singleton.mpr
      (.unescaped 'a' (by decide) (by decide) (by decide) .nil : StringBody [97] [97]))
    (List.forall_mem_singleton.mpr (.arr fun e he => by
      simp only [List.mem_cons, List.not_mem_nil, or_false] at he
      rcases he with rfl | rfl | rfl | rfl
      · exact .int ⟨by decide, by decide⟩
      · exact .int ⟨by decide, by decide⟩
      · exact .arr (List.forall_mem_nil _)
      · exact .str ⟨⟨['/', '\n'], rfl⟩, by simp⟩)))

/-- Two numbers without a call of `optComma` run into each other; a control character other than
the line feed, and a byte that is no UTF-8, stay as they are. -/
theorem not_text_denotes :
    (¬ ∃ s ∈ (Tree.arr [.int 1, .int 2]).document,
      text .kOKCompactJSON 3 false (.arr [.int 1, .int 2]) = some s) ∧
    (¬ ∃ s ∈ (Tree.str [1]).document, text .kOKCompactJSON 3 false (.str [1]) = some s) ∧
    (¬ ∃ s ∈ (Tree.str [255]).document, text .kOKCompactJSON 3 false (.str [255]) = some s) := by
  refine ⟨?_, ?_, ?_⟩
  · rintro ⟨s, hs, htext⟩
    have hvalue : text .kOKCompactJSON 3 false (.arr [.int 1, .int 2]) = some [91, 49, 50, 93] := by
      decide +kernel
    rw [hvalue, Option.some_inj] at htext
    exact absurd (JsonText.comma_mem_of_arr hs) (by rw [← htext]; decide)
  · rintro ⟨s, hs, htext⟩
    have hvalue : text .kOKCompactJSON 3 false (.str [1]) = some [34, 1, 34] := by decide +kernel
    rw [hvalue, Option.some_inj] at htext
    exact absurd (Tree.over_document _ s hs 1 (by simp [← htext])) (by decide)
  · rintro ⟨s, hs, htext⟩
    have hvalue : text .kOKCompactJSON 3 false (.str [255]) = some [34, 255, 34] := by
      decide +kernel
    rw [hvalue, Option.some_inj] at htext
    exact absurd (Tree.over_document _ s hs 255 (by simp [← htext])) (by decide)

end EMdFOutput

end Emdros
