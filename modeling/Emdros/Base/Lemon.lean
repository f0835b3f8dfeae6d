/-
# Parsers on a bounded stack (`lempar.c`)

The parser that Lemon makes is a set of tables around one driver.  The driver is called with one
token at a time and keeps a stack of entries between the calls.  An entry holds a state, or a
reduction that was decided when the token was shifted and that the next call carries out: the
tables leave such a reduction `pending` where no token could change it.

The stack has a fixed number of entries.  A push that does not fit empties the stack, and the call
ends there; nothing tells the caller.

The tables and the actions of a grammar are parameters.  `Settles` is what a call does before it
looks at its token, and `parse_settles` lets a proof start from the stack that is left then.
-/

universe u

namespace Lemon

/-- What the tables answer in a state: `shiftReduce` shifts the token and leaves the reduction
pending. -/
inductive Action (Q R : Type u) where
  | shift (q : Q)
  | shiftReduce (r : R)
  | reduce (r : R)
  | accept
  | error

/-- The `stateno` of a stack entry. -/
inductive StateNo (Q R : Type u) where
  | state (q : Q)
  | pending (r : R)
  | accept

/-- A parser: states `Q`, rules `R`, tokens `T`, values `V`, and the extra argument `E`.  The action
of a rule gets the values of its right-hand side in their order. -/
structure Tables (Q R T V E : Type u) where
  stackDepth : Nat
  start : Q
  shiftAction : Q → Option T → Action Q R
  reduceAction : Q → R → Option (StateNo Q R)
  nrhs : R → Nat
  act : R → List V → E → Option (V × E)
  minor : Option T → V
  syntaxError : Option T → E → E
  parseFailure : E → E

/-- A stack entry. -/
structure Entry (Q R V : Type u) where
  stateno : StateNo Q R
  minor : V

/-- `yyParser`: the entries above the first, the top in front. -/
structure Parser (Q R V : Type u) where
  yystack : List (Entry Q R V)
  yyerrcnt : Int

namespace Tables

variable {Q R T V E : Type u} (P : Tables Q R T V E)

/-- `ParseInit`. -/
def init : Parser Q R V := ⟨[], -1⟩

/-- `yytos->stateno`. -/
def stateno : List (Entry Q R V) → StateNo Q R
  | [] => .state P.start
  | e :: _ => e.stateno

/-- `yy_find_shift_action`. -/
def findShiftAction (lookahead : Option T) : StateNo Q R → Action Q R
  | .state q => P.shiftAction q lookahead
  | .pending r => .reduce r
  | .accept => .accept

/-- `yy_reduce`; there is no result where the tables and the stack do not belong together. -/
def reduce (r : R) (stack : List (Entry Q R V)) (env : E) : Option (List (Entry Q R V) × E) :=
  match P.act r ((stack.take (P.nrhs r)).reverse.map Entry.minor) env,
      P.stateno (stack.drop (P.nrhs r)) with
  | some (v, env), .state q =>
    (P.reduceAction q r).map fun no => (⟨no, v⟩ :: stack.drop (P.nrhs r), env)
  | _, _ => none

/-- One more entry does not fit. -/
def full (stack : List (Entry Q R V)) : Prop := P.stackDepth ≤ stack.length + 1

instance (stack : List (Entry Q R V)) : Decidable (P.full stack) :=
  inferInstanceAs (Decidable (P.stackDepth ≤ stack.length + 1))

/-- `yy_shift`. -/
def shift (stack : List (Entry Q R V)) (no : StateNo Q R) (v : V) : List (Entry Q R V) :=
  if P.full stack then [] else ⟨no, v⟩ :: stack

/-- The branch of a syntax error: errors are reported again after three tokens only, and the end
of the input empties the stack. -/
def error (lookahead : Option T) (p : Parser Q R V) (env : E) : Parser Q R V × E :=
  let env := if p.yyerrcnt ≤ 0 then P.syntaxError lookahead env else env
  match lookahead with
  | none => (⟨[], -1⟩, P.parseFailure env)
  | some _ => (⟨p.yystack, 3⟩, env)

/-- `Parse`: the loop of one call, as many turns of it as `fuel` allows. -/
def parse : Nat → Option T → Parser Q R V → E → Option (Parser Q R V × E)
  | 0, _, _, _ => none
  | fuel + 1, lookahead, p, env =>
    match P.findShiftAction lookahead (P.stateno p.yystack) with
    | .reduce r =>
      if P.nrhs r = 0 ∧ P.full p.yystack then some (⟨[], p.yyerrcnt⟩, env)
      else
        match P.reduce r p.yystack env with
        | none => none
        | some (stack, env) => parse fuel lookahead ⟨stack, p.yyerrcnt⟩ env
    | .shift q =>
      some (⟨P.shift p.yystack (.state q) (P.minor lookahead), p.yyerrcnt - 1⟩, env)
    | .shiftReduce r =>
      some (⟨P.shift p.yystack (.pending r) (P.minor lookahead), p.yyerrcnt - 1⟩, env)
    | .accept => some (⟨p.yystack.tail, -1⟩, env)
    | .error => some (P.error lookahead p env)

/-! ## Pending reductions -/

/-- `k` pending reductions, none of them of an empty rule, lead from one stack to the other. -/
inductive Settles (env : E) : Nat → List (Entry Q R V) → List (Entry Q R V) → Prop
  | refl (stack) : Settles env 0 stack stack
  | step {k : Nat} {r : R} {stack next last : List (Entry Q R V)}
      (top : P.stateno stack = .pending r) (rhs : P.nrhs r ≠ 0)
      (reduces : P.reduce r stack env = some (next, env)) (rest : Settles env k next last) :
      Settles env (k + 1) stack last

variable {P}

/-- A reduction takes the entries of the right-hand side away and puts one in their place. -/
theorem reduce_append {r : R} {args rest : List (Entry Q R V)} {env env' : E} {v : V} {q : Q}
    {no : StateNo Q R} (len : P.nrhs r = args.length)
    (act : P.act r (args.reverse.map Entry.minor) env = some (v, env'))
    (below : P.stateno rest = .state q) (goto : P.reduceAction q r = some no) :
    P.reduce r (args ++ rest) env = some (⟨no, v⟩ :: rest, env') := by
  rw [reduce, len, List.take_left, List.drop_left, act, below]
  simp only [goto, Option.map_some]

/-- **A call begins with the pending reductions**, whatever its token is. -/
theorem parse_settles {env : E} {k : Nat} {stack last : List (Entry Q R V)}
    (h : P.Settles env k stack last) (fuel : Nat) (lookahead : Option T) (errcnt : Int) :
    P.parse (fuel + k) lookahead ⟨stack, errcnt⟩ env =
      P.parse fuel lookahead ⟨last, errcnt⟩ env := by
  induction h with
  | refl stack => rfl
  | step top rhs reduces _ ih =>
    rw [← Nat.add_assoc, parse, top]
    simp only [findShiftAction, rhs, false_and, if_false, reduces]
    exact ih

end Tables

end Lemon
