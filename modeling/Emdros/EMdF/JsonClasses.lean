/-
# JSON values (`json_classes.cpp`)

A `JSONValue` owns a tree.  The two printers write it on one line, or on several with three spaces
for each level.  A list is a `std::list`, and an object a `std::map`, kept here as its pairs in the
order of the keys; `WellFormed` says that they are in order, and bounds what a leaf may hold.

The constructors that the parser calls take what it has linked together, the last element in
front.
-/
import Emdros.EMdF.StringFunc

namespace Emdros

open Lexer (bytes)

/-- `JSONValue`, with its kind. -/
inductive JSONValue where
  | null
  | boolean (b : Bool)
  | integer (i : Int)
  | string (s : List UInt8)
  | list (l : List JSONValue)
  | object (o : List (List UInt8 × JSONValue))

namespace JSONValue

/-! ## 1. Constructors -/

/-- `JSONValue(JSONListElement*)`: each element is pushed in front. -/
def ofListElements (tail : List JSONValue) : JSONValue :=
  .list (tail.foldl (fun l v => v :: l) [])

/-- `erase(find(key))`. -/
def erase (key : List UInt8) (o : List (List UInt8 × JSONValue)) :
    List (List UInt8 × JSONValue) := o.filter fun e => e.1 ≠ key

/-- `insert(make_pair(key, value))` where the key is not there. -/
def insert (key : List UInt8) (value : JSONValue) :
    List (List UInt8 × JSONValue) → List (List UInt8 × JSONValue)
  | [] => [(key, value)]
  | e :: rest => if key < e.1 then (key, value) :: e :: rest else e :: insert key value rest

/-- `JSONValue(JSONKeyValuePair*)`: a key that is there already is replaced. -/
def ofKeyValuePairs (tail : List (List UInt8 × JSONValue)) : JSONValue :=
  .object (tail.foldl (fun o e => insert e.1 e.2 (erase e.1 o)) [])

/-! ## 2. Printers -/

/-- A string or a key between double quotes. -/
def quoted (s : List UInt8) : List UInt8 := 34 :: escapeJSONChars s ++ [34]

/-- `indent`. -/
def indent (indent_level : Nat) : List UInt8 := (List.replicate indent_level (bytes "   ")).flatten

/-- The kinds that both printers write in one way. -/
def printLeaf : JSONValue → List UInt8
  | null => bytes "null"
  | boolean b => if b then bytes "true" else bytes "false"
  | integer i => longlong2string i
  | string s => quoted s
  | list _ => []
  | object _ => []

mutual

/-- `printCompact(pOut, false)`. -/
def printCompact : JSONValue → List UInt8
  | list [] => bytes "[]"
  | list (v :: rest) => bytes "[" ++ printCompact v ++ printCompactElements rest ++ bytes "]"
  | object [] => bytes "\x7b\x7d"
  | object ((k, v) :: rest) =>
    bytes "\x7b" ++ quoted k ++ bytes ":" ++ printCompact v ++ printCompactMembers rest ++
      bytes "\x7d"
  | null => printLeaf null
  | boolean b => printLeaf (boolean b)
  | integer i => printLeaf (integer i)
  | string s => printLeaf (string s)

/-- The loop over the elements after the first. -/
def printCompactElements : List JSONValue → List UInt8
  | [] => []
  | v :: rest => bytes "," ++ printCompact v ++ printCompactElements rest

/-- The loop over the pairs after the first. -/
def printCompactMembers : List (List UInt8 × JSONValue) → List UInt8
  | [] => []
  | (k, v) :: rest =>
    bytes "," ++ quoted k ++ bytes ":" ++ printCompact v ++ printCompactMembers rest

end

/-- The newline at the end of what is on the outermost level. -/
def lastNewline (indent_level : Nat) : List UInt8 := if indent_level = 0 then bytes "\n" else []

mutual

/-- `pretty(pOut, indent_level, false)`.  The values of an object's later pairs are two levels
further in. -/
def pretty (indent_level : Nat) : JSONValue → List UInt8
  | list [] =>
    bytes "[\n" ++ bytes "\n" ++ indent indent_level ++ bytes "]" ++ lastNewline indent_level
  | list (v :: rest) =>
    bytes "[\n" ++ indent (indent_level + 1) ++ pretty (indent_level + 1) v ++
      prettyElements indent_level rest ++ bytes "\n" ++ indent indent_level ++ bytes "]" ++
      lastNewline indent_level
  | object [] =>
    bytes "\x7b\n" ++ bytes "\n" ++ indent indent_level ++ bytes "\x7d" ++
      lastNewline indent_level
  | object ((k, v) :: rest) =>
    bytes "\x7b\n" ++ indent (indent_level + 1) ++ quoted k ++ bytes " : " ++
      pretty (indent_level + 1) v ++ prettyMembers indent_level rest ++ bytes "\n" ++
      indent indent_level ++ bytes "\x7d" ++ lastNewline indent_level
  | null => printLeaf null ++ lastNewline indent_level
  | boolean b => printLeaf (boolean b) ++ lastNewline indent_level
  | integer i => printLeaf (integer i) ++ lastNewline indent_level
  | string s => printLeaf (string s) ++ lastNewline indent_level

def prettyElements (indent_level : Nat) : List JSONValue → List UInt8
  | [] => []
  | v :: rest =>
    bytes ",\n" ++ indent (indent_level + 1) ++ pretty (indent_level + 1) v ++
      prettyElements indent_level rest

def prettyMembers (indent_level : Nat) : List (List UInt8 × JSONValue) → List UInt8
  | [] => []
  | (k, v) :: rest =>
    bytes ",\n" ++ indent (indent_level + 1) ++ quoted k ++ bytes " : " ++
      pretty (indent_level + 2) v ++ prettyMembers indent_level rest

end

/-! ## 3. What the reader can give back -/

mutual

/-- Integers of at most ten digits, strings and keys without a zero byte, and the keys of an object
in the order of the map. -/
def WellFormed : JSONValue → Prop
  | integer i => i.natAbs < 10 ^ 10
  | string s => 0 ∉ s
  | list l => WellFormedElements l
  | object o => o.Pairwise (fun a b => a.1 < b.1) ∧ WellFormedMembers o
  | _ => True

def WellFormedElements : List JSONValue → Prop
  | [] => True
  | v :: rest => WellFormed v ∧ WellFormedElements rest

def WellFormedMembers : List (List UInt8 × JSONValue) → Prop
  | [] => True
  | (k, v) :: rest => 0 ∉ k ∧ WellFormed v ∧ WellFormedMembers rest

end

mutual

def decWellFormed : ∀ v : JSONValue, Decidable (WellFormed v)
  | null => .isTrue trivial
  | boolean _ => .isTrue trivial
  | integer i => inferInstanceAs (Decidable (i.natAbs < 10 ^ 10))
  | string s => inferInstanceAs (Decidable (0 ∉ s))
  | list l => decWellFormedElements l
  | object o =>
    have := decWellFormedMembers o
    inferInstanceAs (Decidable (o.Pairwise (fun a b => a.1 < b.1) ∧ WellFormedMembers o))

def decWellFormedElements : ∀ l : List JSONValue, Decidable (WellFormedElements l)
  | [] => .isTrue trivial
  | v :: rest =>
    have := decWellFormed v
    have := decWellFormedElements rest
    inferInstanceAs (Decidable (WellFormed v ∧ WellFormedElements rest))

def decWellFormedMembers : ∀ o : List (List UInt8 × JSONValue), Decidable (WellFormedMembers o)
  | [] => .isTrue trivial
  | (k, v) :: rest =>
    have := decWellFormed v
    have := decWellFormedMembers rest
    inferInstanceAs (Decidable (0 ∉ k ∧ WellFormed v ∧ WellFormedMembers rest))

end

instance : DecidablePred WellFormed := decWellFormed

/-- The constructor takes a list in the reverse of its order. -/
theorem ofListElements_reverse (l : List JSONValue) : ofListElements l.reverse = .list l := by
  simp [ofListElements]

theorem erase_of_lt {key : List UInt8} {o : List (List UInt8 × JSONValue)}
    (h : ∀ e ∈ o, key < e.1) : erase key o = o := by
  rw [erase, List.filter_eq_self]
  intro e he
  have hlt := h e he
  rw [decide_eq_true_eq]
  intro heq
  rw [heq] at hlt
  exact List.lt_irrefl key hlt

/-- A key before all others goes in front. -/
theorem insert_of_lt {key : List UInt8} {v : JSONValue} {o : List (List UInt8 × JSONValue)}
    (h : ∀ e ∈ o, key < e.1) : insert key v o = (key, v) :: o := by
  cases o with
  | nil => rfl
  | cons e rest => rw [insert, if_pos (h e List.mem_cons_self)]

/-- **Walking backwards over ascending keys**, the constructor builds the map again. -/
theorem ofKeyValuePairs_reverse {o : List (List UInt8 × JSONValue)}
    (h : o.Pairwise fun a b => a.1 < b.1) : ofKeyValuePairs o.reverse = .object o := by
  rw [ofKeyValuePairs, List.foldl_reverse]
  congr 1
  induction o with
  | nil => rfl
  | cons e rest ih =>
    rw [List.pairwise_cons] at h
    rw [List.foldr_cons, ih h.2, erase_of_lt h.1, insert_of_lt h.1]

/-! ## 4. Objects by key -/

/-- `getObjectValue` and `operator[]`; another kind has no key. -/
def getObjectValue (v : JSONValue) (key : List UInt8) : Option JSONValue :=
  match v with
  | object o => (o.find? fun e => e.1 == key).map Prod.snd
  | _ => none

/-- `getObjectKeys`. -/
def getObjectKeys : JSONValue → List (List UInt8)
  | object o => o.map Prod.fst
  | _ => []

def getBoolean : JSONValue → Bool
  | boolean b => b
  | _ => false

/-- `getKind() == kJSONObject`. -/
def isObject : JSONValue → Bool
  | object _ => true
  | _ => false

theorem exists_getObjectValue {v : JSONValue} {key : List UInt8} :
    (∃ w, v.getObjectValue key = some w) ↔ key ∈ v.getObjectKeys := by
  cases v with
  | object o =>
    simp only [getObjectValue, getObjectKeys, Option.map_eq_some_iff, List.mem_map]
    constructor
    · rintro ⟨w, e, he, rfl⟩
      have hkey : e.1 = key := by simpa using List.find?_some he
      exact ⟨e, List.mem_of_find?_eq_some he, hkey⟩
    · rintro ⟨e, he, rfl⟩
      have hsome : (o.find? fun e' => e'.1 == e.1).isSome := by
        rw [List.find?_isSome]
        exact ⟨e, he, by simp⟩
      obtain ⟨e', he'⟩ := Option.isSome_iff_exists.mp hsome
      exact ⟨e'.2, e', he', rfl⟩
  | _ => simp [getObjectValue, getObjectKeys]

end JSONValue

end Emdros
