/-
# Numbers in statements (`mql.yxx`, `mql_helper_classes.cpp`)

An `INTEGER` token holds a `long long`; the actions of the grammar cast it to the 32 bits of
`monad_m`, `emdf_ivalue` or `id_d_t`.  What is checked later (`weed`) is the value that is left.

A statement is modelled as the phrases in it whose actions read a token (`Phrase`), with what
`weed` asks of each.  `Statement.exact_iff` says which statements have in the AST the numbers that
are written in them.
-/
import Emdros.MQL.MonadSetChain
import Emdros.MQL.Query
import Emdros.MQL.Scanner

namespace Emdros

/-! ## 1. Phrases -/

/-- The cast of a `long long` to 32 bits. -/
@[irreducible] def narrow (i : Int) : Int := i.bmod 4294967296

/-- `signed_integer`, over `INTEGER` tokens. -/
inductive SignedInteger where
  | integer (i : Nat)
  | dash (i : Nat)
  | nil
  deriving DecidableEq, Repr

/-- The actions of `signed_integer`; `NIL` is 0. -/
def SignedInteger.build : SignedInteger → Int
  | integer i => narrow i
  | dash i => narrow (-i)
  | nil => 0

/-- `id_d_const`. -/
inductive IdDConst where
  | integer (i : Nat)
  | nil
  deriving DecidableEq, Repr

def IdDConst.build : IdDConst → Int
  | integer i => narrow i
  | nil => 0

/-- `power`: `..`, `.. < limit`, `.. <= limit` or `.. BETWEEN limit AND limit`. -/
inductive PowerSyntax where
  | unrestricted
  | lessThan (limit : Nat)
  | lessThanOrEqual (limit : Nat)
  | between (low high : Nat)
  deriving DecidableEq, Repr

/-- The actions of `power`, `restrictor` and `limit`; the subtraction is that of 32 bits. -/
def PowerSyntax.build : PowerSyntax → Power
  | unrestricted => ⟨0, maxMonad⟩
  | lessThan limit => ⟨0, narrow (narrow limit - 1)⟩
  | lessThanOrEqual limit => ⟨0, narrow limit⟩
  | between low high => ⟨narrow low, narrow high⟩

/-- `using_range_clause`, with one or two numbers. -/
inductive UsingRangeSyntax where
  | upTo (last : Nat)
  | range (first last : Nat)
  deriving DecidableEq, Repr

def UsingRangeSyntax.build : UsingRangeSyntax → UsingRange
  | upTo last => ⟨0, narrow last⟩
  | range first last => ⟨narrow first, narrow last⟩

/-- Whether `weed` is called on a set of monads, and with `bWeedPositive` or without. -/
inductive MonadSetWeed where
  | positive
  | star
  | never
  deriving DecidableEq, Repr

/-- What reads `INTEGER` tokens. -/
inductive Phrase where
  | signedInteger (s : SignedInteger)
  | idDConst (c : IdDConst)
  /-- `id_d_list`, on which `weedNoneIsNIL` is called or not. -/
  | idDList (cs : List IdDConst) (noneIsNIL : Bool)
  | usingRange (r : UsingRangeSyntax)
  | power (p : PowerSyntax)
  | maxRange (i : Nat)
  | singleMonad (i : Nat)
  | segmentRange (a b : Nat)
  | monadSet (es : List MonadSetElementSyntax) (w : MonadSetWeed)
  deriving Repr

/-! ## 2. Statements -/

/-- `expression`: a default or what a feature is assigned. -/
inductive ExpressionSyntax where
  | signedInteger (s : SignedInteger)
  | monadSet (es : List MonadSetElementSyntax)
  | listOfInteger (values : List SignedInteger)
  deriving Repr

/-- What has numbers in a query: the phrases of its blocks, in any order. -/
inductive QueryPhrase where
  | usingRange (r : UsingRangeSyntax)
  | power (p : PowerSyntax)
  | star (es : List MonadSetElementSyntax)
  | comparison (values : List SignedInteger)
  deriving Repr

/-- `object_creation_no_object_type`. -/
structure ObjectCreation where
  monads : List MonadSetElementSyntax
  withIdD : Option IdDConst
  assignments : List ExpressionSyntax

/-- The statements that may have numbers in them. -/
inductive Statement where
  | createObjectType (defaults : List ExpressionSyntax)
  | updateObjectType (defaults : List ExpressionSyntax)
  | insertMonads (monads : List MonadSetElementSyntax)
  | deleteMonads (monads : List MonadSetElementSyntax)
  | getMonads (idDs : List IdDConst)
  | monadSetCalculation (chain : List (List MonadSetElementSyntax))
  | createMonadSet (monads : List MonadSetElementSyntax)
  | updateMonadSet (monads : List MonadSetElementSyntax)
  | createEnumeration (initializations : List SignedInteger)
  | updateEnumeration (initializations : List SignedInteger)
  | createSegment (a b : Nat)
  | select (inClause : List MonadSetElementSyntax) (maxRange : Option Nat)
      (query : List QueryPhrase)
  | selectObjectsAt (monad : Nat)
  | selectObjectsHavingMonadsIn (monads : List MonadSetElementSyntax)
  | getAggregateFeatures (inClause : List MonadSetElementSyntax) (comparisons : List SignedInteger)
  | getObjectsHavingMonadsIn (monads : List MonadSetElementSyntax)
  | createObjectFromMonads (object : ObjectCreation)
  | createObjectFromIdDs (idDs : List IdDConst) (withIdD : Option IdDConst)
      (assignments : List ExpressionSyntax)
  | createObjects (objects : List ObjectCreation)
  | updateObjectsByMonads (monads : List MonadSetElementSyntax)
      (assignments : List ExpressionSyntax)
  | updateObjectsByIdDs (idDs : List IdDConst) (assignments : List ExpressionSyntax)
  | deleteObjectsByMonads (monads : List MonadSetElementSyntax)
  | deleteObjectsByIdDs (idDs : List IdDConst)
  | getFeatures (idDs : List IdDConst)

/-- An expression is weeded, which concerns sets of monads. -/
def ExpressionSyntax.phrases : ExpressionSyntax → List Phrase
  | signedInteger s => [.signedInteger s]
  | monadSet es => [.monadSet es .positive]
  | listOfInteger values => values.map .signedInteger

def QueryPhrase.phrases : QueryPhrase → List Phrase
  | usingRange r => [.usingRange r]
  | power p => [.power p]
  | star es => [.monadSet es .star]
  | comparison values => values.map .signedInteger

def ObjectCreation.phrases (o : ObjectCreation) : List Phrase :=
  .monadSet o.monads .positive :: o.withIdD.toList.map .idDConst ++
    o.assignments.flatMap ExpressionSyntax.phrases

/-- The phrases of a statement, with what its `weed` does with them.  An empty list of elements
stands for a clause that is left out or for `ALL`. -/
def Statement.phrases : Statement → List Phrase
  | createObjectType defaults => defaults.flatMap ExpressionSyntax.phrases
  | updateObjectType defaults => defaults.flatMap ExpressionSyntax.phrases
  | insertMonads monads => [.monadSet monads .never]
  | deleteMonads monads => [.monadSet monads .never]
  | getMonads idDs => [.idDList idDs false]
  | monadSetCalculation chain => chain.map fun es => .monadSet es .positive
  | createMonadSet monads => [.monadSet monads .positive]
  | updateMonadSet monads => [.monadSet monads .positive]
  | createEnumeration initializations => initializations.map .signedInteger
  | updateEnumeration initializations => initializations.map .signedInteger
  | createSegment a b => [.segmentRange a b]
  | select inClause maxRange query =>
    .monadSet inClause .never :: maxRange.toList.map .maxRange ++
      query.flatMap QueryPhrase.phrases
  | selectObjectsAt monad => [.singleMonad monad]
  | selectObjectsHavingMonadsIn monads => [.monadSet monads .positive]
  | getAggregateFeatures inClause comparisons =>
    .monadSet inClause .positive :: comparisons.map .signedInteger
  | getObjectsHavingMonadsIn monads => [.monadSet monads .positive]
  | createObjectFromMonads object => object.phrases
  | createObjectFromIdDs idDs withIdD assignments =>
    .idDList idDs true :: withIdD.toList.map .idDConst ++
      assignments.flatMap ExpressionSyntax.phrases
  | createObjects objects => objects.flatMap ObjectCreation.phrases
  | updateObjectsByMonads monads assignments =>
    .monadSet monads .positive :: assignments.flatMap ExpressionSyntax.phrases
  | updateObjectsByIdDs idDs assignments =>
    .idDList idDs true :: assignments.flatMap ExpressionSyntax.phrases
  | deleteObjectsByMonads monads => [.monadSet monads .positive]
  | deleteObjectsByIdDs idDs => [.idDList idDs true]
  | getFeatures idDs => [.idDList idDs false]

/-! ## 3. `weed` -/

/-- `Power::weed`. -/
def Power.weed (p : Power) : Bool := p.limitLow ≤ p.limitHigh

/-- `weedNoneIsNIL`. -/
def weedNoneIsNIL (idDs : List Int) : Bool := !idDs.contains 0

/-- What the `weed` of the statement asks of a phrase. -/
def Phrase.weed : Phrase → Bool
  | idDList cs true => weedNoneIsNIL (cs.map IdDConst.build)
  | usingRange r => r.build.weed
  | power p => p.build.weed
  | segmentRange a b => (MQLMonadSetElement.weed [⟨narrow a, narrow b⟩] true).isOk
  | monadSet es .positive => (MQLMonadSetElement.weed (buildMonadSet es) true).isOk
  | monadSet es .star => (MQLMonadSetElement.weed (buildMonadSet es) false).isOk
  | _ => true

/-- `INSERT MONADS` and `DELETE MONADS` are not implemented. -/
def Statement.isImplemented : Statement → Bool
  | insertMonads _ => false
  | deleteMonads _ => false
  | _ => true

/-- A statement passes `weed`.  What else is asked of it does not concern numbers, and is `others`. -/
def Statement.Weeded (others : Bool) (s : Statement) : Prop :=
  others = true ∧ s.isImplemented = true ∧ ∀ p ∈ s.phrases, p.weed = true

/-! ## 4. The numbers -/

/-- Where a number goes.  A `monad` has to be 1 or more, and is checked for it or not; the members
of the set of a star may be 0. -/
inductive LiteralKind where
  | number
  | monad (checked : Bool)
  | repetitions
  deriving DecidableEq, Repr

/-- A number of a statement: what is written, and what stands for it in the AST. -/
structure Literal where
  kind : LiteralKind
  written : Int
  inAST : Int
  deriving DecidableEq, Repr

namespace Literal

/-- The number in the AST is the one that is written, and monads are monads. -/
def Exact (l : Literal) : Prop :=
  l.inAST = l.written ∧
    match l.kind with
    | .number => True
    | .monad _ => 1 ≤ l.inAST ∧ l.inAST ≤ maxMonad
    | .repetitions => 0 ≤ l.inAST ∧ l.inAST ≤ maxMonad

/-- The number that is written fits where it goes. -/
def Fits (l : Literal) : Prop :=
  match l.kind with
  | .number => -2147483648 ≤ l.written ∧ l.written < 2147483648
  | .monad true => l.written ≤ maxMonad
  | .monad false => 1 ≤ l.written ∧ l.written ≤ maxMonad
  | .repetitions => l.written ≤ maxMonad

end Literal

def SignedInteger.literals (s : SignedInteger) : List Literal :=
  match s with
  | integer i => [⟨.number, i, s.build⟩]
  | dash i => [⟨.number, -i, s.build⟩]
  | nil => []

def IdDConst.literals (c : IdDConst) : List Literal :=
  match c with
  | integer i => [⟨.number, i, c.build⟩]
  | nil => []

/-- `< limit` is written for the numbers up to `limit - 1`. -/
def PowerSyntax.literals (p : PowerSyntax) : List Literal :=
  match p with
  | unrestricted => []
  | lessThan limit => [⟨.number, limit - 1, p.build.limitHigh⟩]
  | lessThanOrEqual limit => [⟨.number, limit, p.build.limitHigh⟩]
  | between low high => [⟨.number, low, p.build.limitLow⟩, ⟨.number, high, p.build.limitHigh⟩]

def UsingRangeSyntax.literals (r : UsingRangeSyntax) : List Literal :=
  match r with
  | upTo last => [⟨.number, last, r.build.end_⟩]
  | range first last => [⟨.number, first, r.build.start⟩, ⟨.number, last, r.build.end_⟩]

def MonadSetElementSyntax.literals (kind : LiteralKind) (e : MonadSetElementSyntax) :
    List Literal :=
  match e with
  | single a => [⟨kind, a, e.build.mseFirst⟩, ⟨kind, a, e.build.mseLast⟩]
  | range a b => [⟨kind, a, e.build.mseFirst⟩, ⟨kind, b, e.build.mseLast⟩]
  | openRange a => [⟨kind, a, e.build.mseFirst⟩]

def MonadSetWeed.kind : MonadSetWeed → LiteralKind
  | positive => .monad true
  | star => .repetitions
  | never => .monad false

def Phrase.literals : Phrase → List Literal
  | signedInteger s => s.literals
  | idDConst c => c.literals
  | idDList cs _ => cs.flatMap IdDConst.literals
  | usingRange r => r.literals
  | power p => p.literals
  | maxRange i => [⟨.number, i, narrow i⟩]
  | singleMonad i => [⟨.monad false, i, narrow i⟩]
  | segmentRange a b => [⟨.monad true, a, narrow a⟩, ⟨.monad true, b, narrow b⟩]
  | monadSet es w => es.flatMap (MonadSetElementSyntax.literals w.kind)

/-- The numbers of a statement. -/
def Statement.literals (s : Statement) : List Literal := s.phrases.flatMap Phrase.literals

/-! ## 5. Casts -/

theorem narrow_eq_iff {i : Int} : narrow i = i ↔ -2147483648 ≤ i ∧ i < 2147483648 := by
  unfold narrow
  constructor
  · intro h
    have hlow : -(((4294967296 : Nat) : Int) / 2) ≤ i.bmod 4294967296 := Int.le_bmod (by decide)
    have hhigh : i.bmod 4294967296 < (((4294967296 : Nat) : Int) + 1) / 2 := Int.bmod_lt (by decide)
    rw [h] at hlow hhigh
    exact ⟨hlow, hhigh⟩
  · rintro ⟨hlow, hhigh⟩
    exact Int.bmod_eq_of_le hlow hhigh

/-- A difference of two casts is the cast of the difference. -/
theorem narrow_narrow_sub (i j : Int) : narrow (narrow i - j) = narrow (i - j) := by
  unfold narrow
  exact Int.bmod_sub_bmod

theorem toMonadM_eq (i : Nat) : toMonadM i = narrow i := by
  unfold toMonadM narrow
  rfl

namespace Literal

/-- What is in the AST is the cast of what is written, and only numbers may have a sign. -/
def IsCast (l : Literal) : Prop :=
  l.inAST = narrow l.written ∧ (l.kind ≠ .number → 0 ≤ l.written)

theorem isCast (kind : LiteralKind) (i : Nat) : IsCast ⟨kind, i, narrow i⟩ :=
  ⟨rfl, fun _ => Int.natCast_nonneg i⟩

/-- A number up to `MAX_MONAD` is not changed. -/
theorem IsCast.eq_of_le {l : Literal} (h : l.IsCast) (hnonneg : 0 ≤ l.written)
    (hmax : l.written ≤ maxMonad) : l.inAST = l.written := by
  unfold maxMonad at hmax
  rw [h.1]
  exact narrow_eq_iff.mpr ⟨by omega, by omega⟩

/-- **One number**, of which `weed` has checked what it checks. -/
theorem IsCast.inAST_iff {l : Literal} (h : l.IsCast)
    (hchecked : l.kind = .monad true → 1 ≤ l.inAST) : l.Exact ↔ l.Fits := by
  obtain ⟨kind, written, inAST⟩ := l
  cases kind with
  | number =>
    have hcast : inAST = narrow written := h.1
    rw [Exact, Fits]
    dsimp only
    rw [and_true, hcast, narrow_eq_iff]
  | monad checked =>
    have hnonneg : 0 ≤ written := h.2 (fun hkind => by cases hkind)
    constructor
    · rintro ⟨hexact, hleast, hmax⟩
      dsimp only at hexact hleast hmax
      rw [hexact] at hleast hmax
      cases checked with
      | true => exact hmax
      | false => exact ⟨hleast, hmax⟩
    · intro hfits
      cases checked with
      | true =>
        have hexact : inAST = written := h.eq_of_le hnonneg hfits
        exact ⟨hexact, hchecked rfl, hexact.trans_le hfits⟩
      | false =>
        have hexact : inAST = written := h.eq_of_le hnonneg hfits.2
        exact ⟨hexact, hexact.symm ▸ hfits.1, hexact.trans_le hfits.2⟩
  | repetitions =>
    have hnonneg : 0 ≤ written := h.2 (fun hkind => by cases hkind)
    constructor
    · rintro ⟨hexact, -, hmax⟩
      dsimp only at hexact hmax
      rw [hexact] at hmax
      exact hmax
    · intro hfits
      have hexact : inAST = written := h.eq_of_le hnonneg hfits
      exact ⟨hexact, hexact.symm ▸ hnonneg, hexact.trans_le hfits⟩

end Literal

/-! ## 6. The numbers of a phrase -/

theorem SignedInteger.isCast {s : SignedInteger} : ∀ l ∈ s.literals, l.IsCast := by
  cases s with
  | integer i =>
    simp only [literals, build, List.mem_singleton, forall_eq]
    exact Literal.isCast .number i
  | dash i =>
    simp only [literals, build, List.mem_singleton, forall_eq]
    exact ⟨rfl, fun h => absurd rfl h⟩
  | nil => exact fun l hl => absurd hl List.not_mem_nil

theorem IdDConst.isCast {c : IdDConst} : ∀ l ∈ c.literals, l.IsCast := by
  cases c with
  | integer i =>
    simp only [literals, build, List.mem_singleton, forall_eq]
    exact Literal.isCast .number i
  | nil => exact fun l hl => absurd hl List.not_mem_nil

theorem PowerSyntax.isCast {p : PowerSyntax} : ∀ l ∈ p.literals, l.IsCast := by
  cases p with
  | unrestricted => exact fun l hl => absurd hl List.not_mem_nil
  | lessThan limit =>
    simp only [literals, build, List.mem_singleton, forall_eq]
    exact ⟨narrow_narrow_sub limit 1, fun h => absurd rfl h⟩
  | lessThanOrEqual limit =>
    simp only [literals, build, List.mem_singleton, forall_eq]
    exact Literal.isCast .number limit
  | between low high =>
    simp only [literals, build, List.forall_mem_cons]
    exact ⟨Literal.isCast .number low, Literal.isCast .number high, List.forall_mem_nil _⟩

theorem UsingRangeSyntax.isCast {r : UsingRangeSyntax} : ∀ l ∈ r.literals, l.IsCast := by
  cases r with
  | upTo last =>
    simp only [literals, build, List.mem_singleton, forall_eq]
    exact Literal.isCast .number last
  | range first last =>
    simp only [literals, build, List.forall_mem_cons]
    exact ⟨Literal.isCast .number first, Literal.isCast .number last, List.forall_mem_nil _⟩

theorem MonadSetElementSyntax.isCast {kind : LiteralKind} {e : MonadSetElementSyntax} :
    ∀ l ∈ e.literals kind, l.IsCast := by
  cases e with
  | single a =>
    simp only [literals, build, List.forall_mem_cons, toMonadM_eq]
    exact ⟨Literal.isCast kind a, Literal.isCast kind a, List.forall_mem_nil _⟩
  | range a b =>
    simp only [literals, build, List.forall_mem_cons, toMonadM_eq]
    exact ⟨Literal.isCast kind a, Literal.isCast kind b, List.forall_mem_nil _⟩
  | openRange a =>
    simp only [literals, build, List.mem_singleton, forall_eq, toMonadM_eq]
    exact Literal.isCast kind a

theorem Phrase.isCast {p : Phrase} : ∀ l ∈ p.literals, l.IsCast := by
  cases p with
  | signedInteger s => exact SignedInteger.isCast
  | idDConst c => exact IdDConst.isCast
  | idDList cs noneIsNIL =>
    intro l hl
    obtain ⟨c, -, hc⟩ := List.mem_flatMap.mp hl
    exact IdDConst.isCast l hc
  | usingRange r => exact UsingRangeSyntax.isCast
  | power p => exact PowerSyntax.isCast
  | maxRange i =>
    simp only [literals, List.mem_singleton, forall_eq]
    exact Literal.isCast .number i
  | singleMonad i =>
    simp only [literals, List.mem_singleton, forall_eq]
    exact Literal.isCast (.monad false) i
  | segmentRange a b =>
    simp only [literals, List.forall_mem_cons]
    exact ⟨Literal.isCast _ a, Literal.isCast _ b, List.forall_mem_nil _⟩
  | monadSet es w =>
    intro l hl
    obtain ⟨e, -, he⟩ := List.mem_flatMap.mp hl
    exact MonadSetElementSyntax.isCast l he

theorem SignedInteger.kind_of_mem_literals {s : SignedInteger} {l : Literal}
    (hl : l ∈ s.literals) : l.kind = .number := by
  cases s <;> simp [literals] at hl
  all_goals rw [hl]

theorem IdDConst.kind_of_mem_literals {c : IdDConst} {l : Literal} (hl : l ∈ c.literals) :
    l.kind = .number := by
  cases c <;> simp [literals] at hl
  rw [hl]

theorem PowerSyntax.kind_of_mem_literals {p : PowerSyntax} {l : Literal} (hl : l ∈ p.literals) :
    l.kind = .number := by
  cases p <;> simp [literals] at hl <;> rcases hl with rfl | rfl <;> rfl

theorem UsingRangeSyntax.kind_of_mem_literals {r : UsingRangeSyntax} {l : Literal}
    (hl : l ∈ r.literals) : l.kind = .number := by
  cases r <;> simp [literals] at hl <;> rcases hl with rfl | rfl <;> rfl

theorem MonadSetElementSyntax.kind_of_mem_literals {kind : LiteralKind} {e : MonadSetElementSyntax}
    {l : Literal} (hl : l ∈ e.literals kind) : l.kind = kind := by
  cases e <;> simp [literals] at hl <;> rcases hl with rfl | rfl <;> rfl

theorem MonadSetElementSyntax.inAST_of_mem_literals {kind : LiteralKind}
    {e : MonadSetElementSyntax} {l : Literal} (hl : l ∈ e.literals kind) :
    l.inAST = e.build.mseFirst ∨ l.inAST = e.build.mseLast := by
  cases e <;> simp only [literals, List.mem_cons, List.not_mem_nil, or_false] at hl
  case single a => rcases hl with rfl | rfl <;> simp only [true_or, or_true]
  case range a b => rcases hl with rfl | rfl <;> simp only [true_or, or_true]
  case openRange a =>
    rw [hl]
    simp only [true_or]

/-- Only sets that are weeded with `bWeedPositive` have checked monads. -/
theorem Phrase.weed_checked {p : Phrase} (hp : p.weed = true) :
    ∀ l ∈ p.literals, l.kind = .monad true → 1 ≤ l.inAST := by
  have hpositive : ∀ {es : List MQLMonadSetElement}, (MQLMonadSetElement.weed es true).isOk = true →
      ∀ e ∈ es, 1 ≤ e.mseFirst ∧ 1 ≤ e.mseLast := by
    intro es hok e he
    cases hweed : MQLMonadSetElement.weed es true with
    | error s =>
      rw [hweed] at hok
      cases hok
    | ok u => exact (MQLMonadSetElement.weed_iff.mp hweed e he).1
  intro l hl hkind
  cases p with
  | segmentRange a b =>
    have h := hpositive hp _ (List.mem_singleton_self _)
    simp only [literals, List.mem_cons, List.not_mem_nil, or_false] at hl
    rcases hl with rfl | rfl
    · exact h.1
    · exact h.2
  | monadSet es w =>
    obtain ⟨e, he, hle⟩ := List.mem_flatMap.mp hl
    cases w with
    | positive =>
      obtain ⟨hfirst, hlast⟩ := hpositive hp e.build (mem_buildMonadSet.mpr ⟨e, he, rfl⟩)
      rcases MonadSetElementSyntax.inAST_of_mem_literals hle with h | h
      · rw [h]
        exact hfirst
      · rw [h]
        exact hlast
    | star =>
      rw [MonadSetElementSyntax.kind_of_mem_literals hle] at hkind
      cases hkind
    | never =>
      rw [MonadSetElementSyntax.kind_of_mem_literals hle] at hkind
      cases hkind
  | singleMonad i =>
    rw [List.mem_singleton.mp hl] at hkind
    cases hkind
  | signedInteger s =>
    rw [SignedInteger.kind_of_mem_literals hl] at hkind
    cases hkind
  | idDConst c =>
    rw [IdDConst.kind_of_mem_literals hl] at hkind
    cases hkind
  | idDList cs noneIsNIL =>
    obtain ⟨c, -, hc⟩ := List.mem_flatMap.mp hl
    rw [IdDConst.kind_of_mem_literals hc] at hkind
    cases hkind
  | usingRange r =>
    rw [UsingRangeSyntax.kind_of_mem_literals hl] at hkind
    cases hkind
  | power p =>
    rw [PowerSyntax.kind_of_mem_literals hl] at hkind
    cases hkind
  | maxRange i =>
    rw [List.mem_singleton.mp hl] at hkind
    cases hkind

/-! ## 7. The numbers of a statement -/

/-- **Numbers are read as written when they fit.**  A token of one to ten digits has the value of
its digits; in a statement that `weed` lets pass, all numbers of the AST are the ones written, and
monads, exactly if all that are written fit where they go. -/
theorem Statement.exact_iff {others : Bool} {s : Statement} (hweeded : s.Weeded others) :
    (∀ text rest : List UInt8, text ≠ [] → text.length ≤ 10 → (∀ c ∈ text, IsDecimal c) →
      (∀ c ∈ rest.head?, MQLScanner.isDigit c = false) →
      MQLScanner.scan (text ++ rest)
        = some (.integer (Radix.horner 10 0 (decimalDigits text)), rest)) ∧
    ((∀ l ∈ s.literals, l.Exact) ↔ ∀ l ∈ s.literals, l.Fits) := by
  refine ⟨fun text rest hne hlen htext hrest => MQLScanner.scan_integer hne hlen htext hrest, ?_⟩
  refine forall₂_congr fun l hl => ?_
  obtain ⟨p, hp, hlp⟩ := List.mem_flatMap.mp hl
  exact (Phrase.isCast l hlp).inAST_iff (Phrase.weed_checked (hweeded.2.2 p hp) l hlp)

/-- `CREATE ENUM`, with `a = 5, b = -2147483648`. -/
theorem Statement.exact_iff_createEnumeration :
    (Statement.createEnumeration [.integer 5, .dash 2147483648]).literals.Forall Literal.Exact :=
  List.forall_iff_forall_mem.mpr <| (@Statement.exact_iff true _ ⟨rfl, rfl, by decide⟩).2.mpr
    (by simp [literals, phrases, Phrase.literals, SignedInteger.literals, Literal.Fits])

/-- `CREATE OBJECT FROM MONADS = { 4294967297 }` passes `weed` and is about monad 1. -/
theorem Statement.not_exact : ¬ ∀ s : Statement, s.Weeded true → ∀ l ∈ s.literals, l.Exact := by
  intro h
  have hexact := h (.createObjectFromMonads ⟨[.single 4294967297], none, []⟩)
    ⟨rfl, rfl, by decide +kernel⟩ ⟨.monad true, 4294967297, 1⟩ (by decide +kernel)
  exact absurd hexact.1 (by decide)

end Emdros
